-- What the slots hold over whole runs of the receiver: fragments of many datagrams, with
-- any losses, repeats, order and interleaving, releases after complete packets, and
-- sweeps at any time. A run remembers what came since a slot was acquired, and the mask,
-- the counter and the data of the slot stay in step with it.
import UdpService.ReassemblyLaws
import UdpService.Lib.Runs

open blocks

namespace udp_service

namespace slot_contents

open hs_udp_fragments rudp_req hs_udp_service reassembly runs

/-! ## The runs -/

/-- A fragment of a datagram comes in, under a number that has a slot. -/
structure Arrival where
  now : Nat
  msg : MsgBuf
  seqNum : Fin MAX_PKTS
  dg : Datagram
  frgmntIdx : Nat
  isFrgmnt : IsFrgmnt msg seqNum dg.bytes frgmntIdx

/-- A call of `defragment`, the release of the packet that it gave out, or a pass of
the sweep. -/
inductive Event
  | arrive (a : Arrival)
  | release
  | sweep (curTime : Nat)

/-- The receiver between two calls, and the packet that was given out and is not yet
released. A run remembers, for each number, the datagram that came last, and what came
since its slot was acquired. -/
structure Slots where
  rcv : Receiver
  handed : Option Handle
  under : Fin MAX_PKTS → Option (List UInt8)
  came : Fin MAX_PKTS → List Nat

def init : Slots := { rcv := .init, handed := none, under := fun _ => none, came := fun _ => [] }

/-- What came under the number since its slot was acquired. A message acquires the slot
when the lookup does not find it. -/
def cameAt (s : Slots) (k : Fin MAX_PKTS) : List Nat :=
  if (find_terminal s.rcv.table TERMINAL_ID k).isSome then s.came k else []

/-- The slots after the call on a message. -/
def called (s : Slots) (a : Arrival) (c : Collated) : Slots :=
  { rcv := c.rcv
    handed := if c.ret = 0 then c.outFragment else none
    under := Function.update s.under a.seqNum (some a.dg.bytes)
    came := Function.update s.came a.seqNum (cameAt s a.seqNum ++ [a.frgmntIdx]) }

/-- One event. No message is taken before a complete packet is released. -/
def step (s : Slots) : Event → Option Slots
  | .arrive a =>
    match s.handed, defragment a.now s.rcv a.msg with
    | none, .ok c => some (called s a c)
    | _, _ => none
  | .release =>
    s.handed.map fun handle =>
      { s with rcv := { s.rcv with table := release_fragment s.rcv.table handle }, handed := none }
  | .sweep curTime => some { s with rcv := r_udp_req_routine curTime s.rcv }

/-- A complete packet is released before the next message, and a datagram starts only
where the slot of its number is not in use: while it is, what comes under the number is
of the datagram that came last. -/
def Allowed (s : Slots) : Event → Prop
  | .arrive a => s.handed = none ∧
      ((s.rcv.table.fragments (slot a.seqNum)).used = true → s.under a.seqNum = some a.dg.bytes)
  | .release => s.handed.isSome
  | .sweep _ => True

instance decidableAllowed (s : Slots) : ∀ e, Decidable (Allowed s e)
  | .arrive _ => inferInstanceAs (Decidable (_ ∧ (_ → _)))
  | .release => inferInstanceAs (Decidable (_ = _))
  | .sweep _ => isTrue trivial

/-- How many bits of the mask are set. -/
def bits (mask : BitVec 32) : Nat := ((List.range 32).filter mask.getLsbD).length

/-- The slot has recorded the fragments of the datagram that came since it was acquired:
those and no others are in the mask, their bytes stand in their places, and each arrival
was counted. A packet is incomplete unless it was just given out. -/
structure Right (s : Slots) (k : Fin MAX_PKTS) (d : List UInt8) (f : UdpFragment) : Prop where
  pktSeqNum : f.pktSeqNum = k
  frgmnts : f.frgmnts = frgmntsOf d.length
  mask : ∀ i, f.frags_mask.getLsbD i = true ↔ i ∈ s.came k
  data : ∀ i ∈ s.came k, ((List.ofFn f.data).drop (i * MAX_MSG_SIZE)).take (frgmntOf d i).length =
    frgmntOf d i
  accumulated : f.accumulatedFrgmnts = (s.came k).length
  bits_le : bits f.frags_mask ≤ f.accumulatedFrgmnts
  incomplete : s.handed ≠ some (slot k) → f.accumulatedFrgmnts < f.frgmnts

/-! ## The law of the slots -/

/-- The slot has gathered what the run remembers, and room is left in it unless it was
just given out. -/
structure Filling (s : Slots) (k : Fin MAX_PKTS) (d : List UInt8) : Prop where
  gathered : Gathered (s.rcv.table.fragments (slot k)) k d (s.came k)
  started : s.came k ≠ []
  short : d.length ≤ NET_PACKET_SIZE
  room : s.handed ≠ some (slot k) → (s.came k).length < frgmntsOf d.length

/-- Every slot in use has gathered fragments of the datagram that came last under its
number. The last slot of the array is never in use. -/
structure Kept (s : Slots) : Prop where
  filling : ∀ k, (s.rcv.table.fragments (slot k)).used = true →
    ∃ d, s.under k = some d ∧ Filling s k d
  spare : (s.rcv.table.fragments (0, Fin.last MAX_PKTS)).used = false

theorem Kept.init : Kept init := ⟨fun _ h => absurd h Bool.false_ne_true, rfl⟩

section kept

variable {s : Slots}

theorem Kept.sweep (h : Kept s) (curTime : Nat) :
    Kept { s with rcv := r_udp_req_routine curTime s.rcv } := by
  refine ⟨?_, ?_⟩
  · intro k hused
    simp only [r_udp_req_routine_slot] at hused
    split_ifs at hused with hto
    obtain ⟨d, hd, hf⟩ := h.filling k hused
    refine ⟨d, hd, ?_, hf.started, hf.short, hf.room⟩
    simp only [r_udp_req_routine_slot, if_neg hto]
    exact hf.gathered
  · simp only [r_udp_req_routine_fragments]
    split_ifs
    · rfl
    · exact h.spare

/-- The packet that was given out leaves its slot free. -/
theorem Kept.release (h : Kept s) {handle : Handle} (hh : s.handed = some handle) :
    Kept { s with
      rcv := { s.rcv with table := release_fragment s.rcv.table handle }, handed := none } := by
  have hfree : ∀ k, ((release_fragment s.rcv.table handle).fragments k).used = true →
      k ≠ handle ∧ (release_fragment s.rcv.table handle).fragments k = s.rcv.table.fragments k := by
    intro k hused
    unfold release_fragment at hused ⊢
    have hk : k ≠ handle := by
      rintro rfl
      rw [UdpFragmentsTable.set_self] at hused
      cases hused
    exact ⟨hk, UdpFragmentsTable.set_ne _ _ hk⟩
  refine ⟨?_, ?_⟩
  · intro k hused
    obtain ⟨hk, hsame⟩ := hfree _ hused
    simp only [hsame] at hused
    obtain ⟨d, hd, hf⟩ := h.filling k hused
    refine ⟨d, hd, ?_, hf.started, hf.short, ?_⟩
    · simp only [hsame]
      exact hf.gathered
    · intro _
      apply hf.room
      rw [hh]
      exact fun he => hk (Option.some.inj he).symm
  · apply Bool.eq_false_iff.mpr
    intro hused
    obtain ⟨-, hsame⟩ := hfree _ hused
    simp only [hsame, h.spare] at hused
    cases hused

/-- What the slot of a message has gathered when the message comes. -/
theorem Kept.before (h : Kept s) {a : Arrival} (ha : Allowed s (.arrive a)) :
    Before (s.rcv.table.fragments (slot a.seqNum)) a.seqNum a.dg.bytes (cameAt s a.seqNum) ∧
      (cameAt s a.seqNum).length < frgmntsOf a.dg.bytes.length := by
  obtain ⟨hhanded, hsame⟩ := ha
  unfold cameAt
  rw [find_terminal_slot]
  by_cases hused : (s.rcv.table.fragments (slot a.seqNum)).used = true
  · obtain ⟨d, hd, hf⟩ := h.filling a.seqNum hused
    obtain rfl : d = a.dg.bytes := Option.some.inj (hd.symm.trans (hsame hused))
    have hroom := hf.room (by simp [hhanded])
    simp only [hf.gathered.terminalId, hused, and_self, if_true, Option.isSome_some]
    exact ⟨Or.inr hf.gathered, hroom⟩
  · simp only [hused, Bool.false_eq_true, and_false, if_false, Option.isSome_none]
    exact ⟨Or.inl ⟨Bool.eq_false_iff.mpr hused, rfl⟩, frgmntsOf_pos a.dg.pos⟩

theorem called_came_self (s : Slots) (a : Arrival) (c : Collated) :
    (called s a c).came a.seqNum = cameAt s a.seqNum ++ [a.frgmntIdx] :=
  Function.update_self _ _ _

theorem called_came_ne (s : Slots) {a : Arrival} (c : Collated) {k : Fin MAX_PKTS}
    (hk : k ≠ a.seqNum) : (called s a c).came k = s.came k :=
  Function.update_of_ne hk _ _

theorem Kept.arrive (h : Kept s) {a : Arrival} (ha : Allowed s (.arrive a)) :
    ∃ s', step s (.arrive a) = some s' ∧ Kept s' := by
  obtain ⟨hb, hroom⟩ := h.before ha
  obtain ⟨c, hc, hst⟩ := defragment_frgmnt a.now a.dg.le a.isFrgmnt hb hroom
  refine ⟨called s a c, by simp only [step, ha.1, hc], ?_, ?_⟩
  · intro k hused
    by_cases hk : k = a.seqNum
    · subst hk
      have hcame := called_came_self s a c
      refine ⟨a.dg.bytes, Function.update_self _ _ _, ?_, ?_, a.dg.le, ?_⟩
      · rw [hcame]
        exact hst.gathered
      · rw [hcame]
        exact List.append_ne_nil_of_right_ne_nil _ (List.cons_ne_nil _ _)
      · intro hnot
        rw [hcame]
        by_contra hall
        obtain ⟨hret, hout⟩ := hst.complete (Nat.le_of_not_lt hall)
        apply hnot
        simp only [called, hret, hout, if_true]
    · have hne : slot k ≠ slot a.seqNum := by simpa using hk
      have hframe : (called s a c).rcv.table.fragments (slot k) =
          s.rcv.table.fragments (slot k) := hst.frame _ hne
      have hcame := called_came_ne s c hk
      rw [hframe] at hused
      obtain ⟨d, hd, hf⟩ := h.filling k hused
      refine ⟨d, (Function.update_of_ne hk _ _).trans hd, ?_, ?_, hf.short, ?_⟩
      · rw [hframe, hcame]
        exact hf.gathered
      · rw [hcame]
        exact hf.started
      · intro _
        rw [hcame]
        exact hf.room (by simp [ha.1])
  · have hframe := hst.frame _ (last_ne_slot a.seqNum)
    unfold called
    rw [hframe]
    exact h.spare

/-- Every event that is allowed happens, and keeps the law. -/
theorem Kept.step (h : Kept s) {e : Event} (he : Allowed s e) :
    ∃ s', slot_contents.step s e = some s' ∧ Kept s' := by
  cases e with
  | arrive a => exact h.arrive he
  | release =>
    obtain ⟨handle, hh⟩ := Option.isSome_iff_exists.mp he
    exact ⟨_, by simp only [slot_contents.step, hh]; rfl, h.release hh⟩
  | sweep curTime => exact ⟨_, rfl, h.sweep curTime⟩

end kept

/-! ## What a slot in use holds -/

theorem bits_le_length {mask : BitVec 32} {came : List Nat}
    (h : ∀ i, mask.getLsbD i = true → i ∈ came) : bits mask ≤ came.length := by
  have hsub : (List.range 32).filter mask.getLsbD ⊆ came := by
    intro i hi
    exact h i (List.mem_filter.mp hi).2
  exact (List.Subperm.length_le ((List.nodup_range.filter _).subperm hsub))

theorem Filling.right {s : Slots} {k : Fin MAX_PKTS} {d : List UInt8} (h : Filling s k d) :
    Right s k d (s.rcv.table.fragments (slot k)) := by
  have hg := h.gathered
  obtain ⟨hseq, hfrgmnts⟩ := hg.header h.started
  have hmask : ∀ i, (s.rcv.table.fragments (slot k)).frags_mask.getLsbD i = true ↔
      i ∈ s.came k := by
    intro i
    rw [hg.mask, decide_eq_true_eq]
  refine ⟨hseq, hfrgmnts, hmask, ?_, hg.accumulated, ?_, ?_⟩
  · intro i hi
    exact block_of_holds hg.holds h.short hi
  · rw [hg.accumulated]
    exact bits_le_length fun i hi => (hmask i).mp hi
  · intro hnot
    rw [hg.accumulated, hfrgmnts]
    exact h.room hnot

/-- In every state that a run of allowed events reaches, each slot in use holds what came
since it was acquired, and nothing of what was there before. -/
theorem stored_bytes_stay_right {es : List Event} (hg : Guarded step Allowed init es) :
    ∃ s, run step init es = some s ∧
      ∀ h, (s.rcv.table.fragments h).used = true → ∃ k d, h = slot k ∧ s.under k = some d ∧
        Right s k d (s.rcv.table.fragments h) := by
  obtain ⟨s, hr, hk⟩ := run_total_guarded (fun s e _ h he => h.step he) Kept.init hg
  refine ⟨s, hr, ?_⟩
  intro h hused
  rcases slot_or_last h with ⟨k, rfl⟩ | rfl
  · obtain ⟨d, hd, hf⟩ := hk.filling k hused
    exact ⟨k, d, rfl, hd, hf.right⟩
  · rw [hk.spare] at hused
    cases hused

/-- Fragment `i` of a datagram of two, under the number 1. -/
def ofTwo (now : Nat) (i : Fin 2) : Arrival :=
  { now, msg := (twoFrgmnts 7 0).message i, seqNum := 1, dg := (twoFrgmnts 7 0).dg, frgmntIdx := i
    isFrgmnt := Sent.messages_isFrgmnt ((twoFrgmnts 7 0).messages_getElem? i.isLt) }

/-- The second fragment comes and times out; then both come, and the second once more,
after the packet was given out. -/
def lateRepeat : List Event :=
  [.arrive (ofTwo 3 1), .sweep 60, .arrive (ofTwo 61 0), .arrive (ofTwo 62 1), .release,
    .arrive (ofTwo 63 1)]

theorem a_late_repeat_is_stored : ∃ s, run step init lateRepeat = some s ∧ s.came 1 = [1] ∧
    Right s 1 (twoFrgmnts 7 0).dg.bytes (s.rcv.table.fragments (slot 1)) := by
  obtain ⟨s, hr, hright⟩ := stored_bytes_stay_right
    (show Guarded step Allowed init lateRepeat by decide +kernel)
  have hend : (run step init lateRepeat).map (fun s =>
      ((s.rcv.table.fragments (slot 1)).used, s.came 1, s.under 1)) =
        some (true, [1], some (twoFrgmnts 7 0).dg.bytes) := by decide +kernel
  rw [hr, Option.map_some, Option.some.injEq, Prod.mk.injEq, Prod.mk.injEq] at hend
  obtain ⟨hused, hcame, hunder⟩ := hend
  obtain ⟨k, d, hk, hd, hholds⟩ := hright (slot 1) hused
  obtain rfl : 1 = k := slot_inj.mp hk
  obtain rfl : (twoFrgmnts 7 0).dg.bytes = d := Option.some.inj (hunder.symm.trans hd)
  exact ⟨s, hr, hcame, hholds⟩

end slot_contents

end udp_service
