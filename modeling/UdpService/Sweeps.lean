-- What the sweep of `r_udp_req_routine` reclaims, after any run of the receiver. The
-- slots of the packet numbers below `MAX_PKTS` are all visited. The allocation also
-- hands out the slot of the number `MAX_PKTS`, and that one is not.
import UdpService.SlotRuns
import UdpService.Bounds

namespace udp_service

namespace sweeps

open hs_udp_fragments rudp_req hs_udp_service runs slot_runs
open bounds (Lands iot_transmit_ok_iff iot_transmit_fresh)

/-- In use, and last written more than `R_UDP_TIMEOUT` seconds ago. -/
def Stale (curTime : Nat) (frag : UdpFragment) : Prop := frag.used = true ∧ TimedOut curTime frag

/-- The pass leaves no stale slot in the declared array, and it touches no other slot. -/
structure Swept (r : Receiver) (curTime : Nat) : Prop where
  reclaimed : ∀ h, ¬ Stale curTime ((r_udp_req_routine curTime r).table.fragments h)
  kept : ∀ h, ¬ Stale curTime (r.table.fragments h) →
    (r_udp_req_routine curTime r).table.fragments h = r.table.fragments h

/-- The last column of the array, the slot of the number `MAX_PKTS`. -/
def spare : Handle := (0, Fin.last MAX_PKTS)

/-- The message opens the spare slot and leaves its packet incomplete. -/
def Strands : Event → Prop
  | .message _ msg => msg.msgHeader.seqNum.val = MAX_PKTS ∧ 1 < msg.msgHeader.frgmnts.val
  | .sweep _ => False

/-- The message strands the spare slot, and at `curTime` that is more than
`R_UDP_TIMEOUT` seconds ago. -/
def StrandedLong (curTime : Nat) : Event → Prop
  | .message now msg => Strands (.message now msg) ∧ (curTime : Int) - now > R_UDP_TIMEOUT
  | .sweep _ => False

/-! ## One pass -/

theorem spare_unswept (curTime : Nat) (r : Receiver) :
    (r_udp_req_routine curTime r).table.fragments spare = r.table.fragments spare := by
  rw [r_udp_req_routine_fragments, if_neg]
  rintro ⟨hmem, -⟩
  obtain ⟨s, -, hs⟩ := List.mem_map.mp hmem
  exact last_ne_slot s hs.symm

theorem routine_kept {curTime : Nat} {r : Receiver} {h : Handle}
    (hs : ¬ Stale curTime (r.table.fragments h)) :
    (r_udp_req_routine curTime r).table.fragments h = r.table.fragments h := by
  rw [r_udp_req_routine_fragments]
  split_ifs with hto
  · have hunused : (r.table.fragments h).used = false := by
      apply Bool.eq_false_iff.mpr
      exact fun hused => hs ⟨hused, hto.2⟩
    rw [← hunused]
  · rfl

theorem routine_reclaims {curTime : Nat} {r : Receiver} {h : Handle}
    (hm : h ∈ (List.finRange MAX_PKTS).map slot) :
    ¬ Stale curTime ((r_udp_req_routine curTime r).table.fragments h) := by
  rw [r_udp_req_routine_fragments]
  split_ifs with hto
  · exact fun hs => absurd hs.1 (by simp)
  · exact fun hs => hto ⟨hm, hs.2⟩

/-- The sweep does its work exactly when the spare slot is not stale. -/
theorem swept_iff_spare (r : Receiver) (curTime : Nat) :
    Swept r curTime ↔ ¬ Stale curTime (r.table.fragments spare) := by
  refine ⟨fun h => ?_, fun hfresh => ⟨fun h => ?_, fun h => routine_kept⟩⟩
  · rw [← spare_unswept curTime r]
    exact h.reclaimed spare
  · rcases slot_or_last h with ⟨s, rfl⟩ | rfl
    · exact routine_reclaims (List.mem_map_of_mem (List.mem_finRange s))
    · change ¬ Stale curTime ((r_udp_req_routine curTime r).table.fragments spare)
      rw [spare_unswept]
      exact hfresh

/-- The sweep does its work at every time exactly when the spare slot is free. -/
theorem swept_iff_spare_free (r : Receiver) :
    (∀ curTime, Swept r curTime) ↔ (r.table.fragments spare).used = false := by
  simp only [swept_iff_spare]
  refine ⟨?_, ?_⟩
  · intro h
    apply Bool.eq_false_iff.mpr
    intro hused
    apply h ((r.table.fragments spare).lastTime + R_UDP_TIMEOUT + 1)
    refine ⟨hused, ?_⟩
    unfold TimedOut
    simp only [R_UDP_TIMEOUT]
    omega
  · intro hfree curTime hs
    exact absurd hs.1 (by simp [hfree])

/-! ## The spare slot over a run -/

/-- A turn on a message for the spare slot: it was free, and it stays in use when the
packet has another fragment. The lookup never finds the slot, so no other message
completes the packet. -/
theorem spare_own {now : Nat} {r : Receiver} {msg : MsgBuf} {t : Transmitted}
    (ht : iot_transmit now r msg = .ok t) (hn : msg.msgHeader.seqNum.val = MAX_PKTS) :
    (r.table.fragments spare).used = false ∧
      ((t.rcv.table.fragments spare).used = true ↔ 1 < msg.msgHeader.frgmnts.val) ∧
      (1 < msg.msgHeader.frgmnts.val → (t.rcv.table.fragments spare).lastTime = now) := by
  obtain ⟨-, s, hs, hserves, -⟩ := (iot_transmit_ok_iff now).mp ⟨t, ht⟩
  obtain rfl : s = Fin.last MAX_PKTS := Fin.ext (hs.trans hn)
  have hfree : (r.table.fragments spare).used = false := by
    apply Bool.eq_false_iff.mpr
    exact fun hused => absurd (hserves hused).1 (lt_irrefl _)
  obtain ⟨c, hlen, -, -, hstored, hstays, hrcv⟩ := iot_transmit_fresh ht hs hfree
  refine ⟨hfree, hstays, fun hmore => ?_⟩
  rw [hrcv hmore]
  exact congrArg UdpFragment.lastTime hstored

theorem spare_step {r r' : Receiver} {e : Event} (hs : step r e = some r') :
    (r'.table.fragments spare).used = true ↔
      (r.table.fragments spare).used = true ∨ Strands e := by
  cases e with
  | message now msg =>
    obtain ⟨t, ht, rfl⟩ := step_message.mp hs
    by_cases hn : msg.msgHeader.seqNum.val = MAX_PKTS
    · obtain ⟨hfree, hstays, -⟩ := spare_own ht hn
      rw [hstays, hfree]
      simp [Strands, hn]
    · rw [iot_transmit_frame ht (k := spare) fun hk => hn hk.symm]
      simp [Strands, hn]
  | sweep curTime =>
    cases hs
    rw [spare_unswept]
    simp [Strands]

theorem spare_run {r r' : Receiver} {es : List Event} (hr : run step r es = some r') :
    (r'.table.fragments spare).used = true ↔
      (r.table.fragments spare).used = true ∨ ∃ e ∈ es, Strands e := by
  induction es generalizing r with
  | nil =>
    cases hr
    simp
  | cons e es ih =>
    obtain ⟨u, hu, hr'⟩ := run_cons_eq_some.mp hr
    rw [ih hr', spare_step hu, or_assoc]
    simp only [List.mem_cons, exists_eq_or_imp]

/-- The spare slot is stale when it was, or when the message stranded it long ago. -/
theorem spare_stale_step {r r' : Receiver} {e : Event} (curTime : Nat) (hs : step r e = some r') :
    Stale curTime (r'.table.fragments spare) ↔
      Stale curTime (r.table.fragments spare) ∨ StrandedLong curTime e := by
  cases e with
  | message now msg =>
    obtain ⟨t, ht, rfl⟩ := step_message.mp hs
    by_cases hn : msg.msgHeader.seqNum.val = MAX_PKTS
    · obtain ⟨hfree, hstays, htime⟩ := spare_own ht hn
      unfold Stale
      rw [hstays, hfree]
      simp only [Bool.false_eq_true, false_and, false_or, StrandedLong, Strands, hn, true_and]
      apply and_congr_right
      intro hmore
      rw [TimedOut, htime hmore]
    · rw [iot_transmit_frame ht (k := spare) fun hk => hn hk.symm]
      simp [StrandedLong, Strands, hn]
  | sweep later =>
    cases hs
    rw [spare_unswept]
    simp [StrandedLong]

theorem spare_stale_run {r r' : Receiver} {es : List Event} (curTime : Nat)
    (hr : run step r es = some r') : Stale curTime (r'.table.fragments spare) ↔
      Stale curTime (r.table.fragments spare) ∨ ∃ e ∈ es, StrandedLong curTime e := by
  induction es generalizing r with
  | nil =>
    cases hr
    simp
  | cons e es ih =>
    obtain ⟨u, hu, hr'⟩ := run_cons_eq_some.mp hr
    rw [ih hr', spare_stale_step curTime hu, or_assoc]
    simp only [List.mem_cons, exists_eq_or_imp]

/-- After a run, the sweep at a time reclaims the stale slots and no other exactly when no
message of the run began a packet of more than one fragment under the number `MAX_PKTS`
more than `R_UDP_TIMEOUT` seconds before, and it does so at every time exactly when no
message began one at all. -/
theorem sweeps_all_iff_none_strands {es : List Event} {r : Receiver}
    (hr : run step .init es = some r) :
    (∀ curTime, Swept r curTime ↔ ∀ e ∈ es, ¬ StrandedLong curTime e) ∧
      ((∀ curTime, Swept r curTime) ↔ ∀ e ∈ es, ¬ Strands e) := by
  refine ⟨fun curTime => ?_, ?_⟩
  · rw [swept_iff_spare, spare_stale_run curTime hr]
    simp [Stale, Receiver.init, UdpFragmentsTable.init, UdpFragment.zero]
  · rw [swept_iff_spare_free, ← Bool.not_eq_true, spare_run hr]
    simp [Receiver.init, UdpFragmentsTable.init, UdpFragment.zero]

/-- The first of two fragments of the packet `seqNum`. -/
def opening (seqNum : Fin 16) : MsgBuf :=
  { MsgBuf.zero with
    msgHeader := { msgCode := 0, frgmntIdx := 0, frgmnts := 2, seqNum, size := 0 } }

theorem packet_three_is_swept :
    ∃ r, run step .init [.message 7 (opening 3)] = some r ∧ Swept r 48 := by
  obtain ⟨t, ht⟩ := (iot_transmit_ok_iff 7).mpr
    (show Lands .init (opening 3) by decide +kernel)
  have hr : run step .init [.message 7 (opening 3)] = some t.rcv :=
    run_cons_eq_some.mpr ⟨t.rcv, step_message.mpr ⟨t, ht, rfl⟩, rfl⟩
  refine ⟨t.rcv, hr, (sweeps_all_iff_none_strands hr).2.mpr ?_ 48⟩
  intro e he
  obtain rfl := List.mem_singleton.mp he
  exact fun hstrands => absurd hstrands.1 (by decide)

/-- The packet 4 is not, at some time. -/
theorem packet_four_is_never_swept :
    ¬ ∀ es r curTime, run step .init es = some r → Swept r curTime := by
  intro hall
  obtain ⟨t, ht⟩ := (iot_transmit_ok_iff 7).mpr
    (show Lands .init (opening 4) by decide +kernel)
  have hr : run step .init [.message 7 (opening 4)] = some t.rcv :=
    run_cons_eq_some.mpr ⟨t.rcv, step_message.mpr ⟨t, ht, rfl⟩, rfl⟩
  have hfree := (swept_iff_spare_free _).mp fun curTime => hall _ _ curTime hr
  have hused := (spare_run hr).mpr (Or.inr ⟨_, List.mem_singleton.mpr rfl, rfl, by decide⟩)
  exact absurd hused (by simp [hfree])

end sweeps

end udp_service
