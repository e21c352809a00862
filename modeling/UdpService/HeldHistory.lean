-- How requests hold up the uplink. An answer puts the deadline of its buffer off
-- by a second, and a pass of `free_history` ends at the first buffer that is not
-- due. So one request a second for the oldest buffer keeps all of them.
import UdpService.UplinkFlow

open blocks runs

namespace udp_service

namespace held_history

open uplink (Uplink Whole Moves history_moves historyAfter whole_moves gone reachable_whole)
open hs_udp_service r_udp

/-! ## While the oldest buffer is not due -/

/-- The clock goes on only while the oldest buffer is not due then. -/
def PutsOff (s : Uplink) : uplink.Action → Prop
  | .tick => ∀ p ∈ (history s.hist).head?, s.clock + 1 < (s.hist.heap p).time
  | _ => True

/-- The history still has the buffers `l` at its head, and every message since `n`
messages has its buffer behind them. -/
structure Held (l : List Ptr) (n : Nat) (s : Uplink) : Prop where
  line : l <+: history s.hist
  due : ∀ p ∈ l.head?, s.clock < (s.hist.heap p).time
  sent : s.log.length + l.length ≤ n + (gone s).length

section held

variable {feed : Feed} {s s' : Uplink} {a : uplink.Action} {l : List Ptr} {n : Nat}

theorem le_time_write {h : Hist} {p q : Ptr} {f : MsgBuf → MsgBuf} (hf : ∀ b, b.time ≤ (f b).time) :
    (h.heap q).time ≤ ((h.write p f).heap q).time := by
  by_cases hq : q = p
  · subst hq
    rw [Hist.write_self]
    exact hf _
  · rw [Hist.write_ne _ _ hq]

/-- No action brings the deadline of a buffer in the history forward. -/
theorem time_moves (hw : Whole feed s) (hm : Moves s a s') {q : Ptr}
    (hq : q ∈ history s.hist) : (s.hist.heap q).time ≤ (s'.hist.heap q).time := by
  cases hm with
  | iotFill p hand =>
    exact le_time_write (f := fun b => (iot_fill s.rx b).2) fun b => Nat.le_refl b.time
  | fusionHeader p hand => exact le_time_write (f := fusion_header) fun b => Nat.le_refl b.time
  | fusionPush p h hand push =>
    obtain ⟨o, ho⟩ := (hw.pushed hand push).2 q
    have hne : q ≠ p := ne_of_mem_of_not_mem hq (hw.push_ok hand).1
    simp only [ho, if_neg hne, Nat.le_refl]
  | lingerFrag req pkt was pending =>
    exact le_time_write (f := fun b => { b with time := b.time + 1 }) fun b => Nat.le_succ b.time
  | sendReply req pkt was pending =>
    exact le_time_write (f := asReply) fun b => Nat.le_refl b.time
  | freeHistory h fifo free => rw [(hw.freed free).2.2]
  | _ => exact Nat.le_refl _

theorem Held.pass {p : Ptr} {ps : List Ptr} (h : Held (p :: ps) n s) :
    historyAfter s .freeHistory = history s.hist := by
  obtain ⟨later, hline⟩ := h.line
  have hdue := h.due p rfl
  unfold historyAfter
  rw [← hline, List.cons_append, List.dropWhile_cons_of_neg]
  rw [decide_eq_true_eq]
  exact Nat.not_le.mpr hdue

theorem held_moves {p : Ptr} {ps : List Ptr} (hw : Whole feed s) (h : Held (p :: ps) n s)
    (hk : PutsOff s a) (hm : Moves s a s') : Held (p :: ps) n s' := by
  have hhist := history_moves hw hm
  have hsent := h.sent
  have hdue : ∀ q ∈ (p :: ps).head?, s.clock < (s'.hist.heap q).time := by
    rintro q ⟨rfl⟩
    exact Nat.lt_of_lt_of_le (h.due p rfl) (time_moves hw hm (h.line.subset List.mem_cons_self))
  unfold gone at hsent
  cases hm with
  | tick =>
    refine ⟨h.line, ?_, hsent⟩
    rintro q ⟨rfl⟩
    obtain ⟨later, hline⟩ := h.line
    exact hk p (by rw [← hline]; rfl)
  | fusionGet q qs hand fifo =>
    refine ⟨h.line, hdue, ?_⟩
    simpa [gone, hand, uplink.SendHand.after] using hsent
  | fusionHeader q hand =>
    refine ⟨hhist ▸ h.line, hdue, ?_⟩
    simpa only [gone, hhist, historyAfter, hand, uplink.SendHand.after] using hsent
  | fusionSend q hand =>
    refine ⟨h.line, hdue, ?_⟩
    simp only [hand, uplink.SendHand.after, List.append_nil] at hsent
    simp only [gone, uplink.SendHand.after, List.length_append, List.length_singleton]
    omega
  | fusionPush q h' hand push =>
    refine ⟨?_, hdue, ?_⟩
    · rw [hhist]
      exact h.line.trans (List.prefix_append _ _)
    · simpa [gone, hhist, historyAfter, hand, uplink.SendHand.ptrs, uplink.SendHand.after] using
        hsent
  | freeHistory h' fifo free =>
    rw [h.pass] at hhist
    refine ⟨hhist ▸ h.line, hdue, ?_⟩
    simpa only [gone, hhist] using hsent
  | _ =>
    refine ⟨hhist ▸ h.line, hdue, ?_⟩
    unfold gone
    rw [hhist]
    exact hsent

theorem gone_le (hw : Whole feed s) : (gone s).length ≤ 63 := by
  have hlen := hw.length
  have hafter : s.fusion.after.length ≤ s.fusion.ptrs.length := by
    cases s.fusion <;> simp [uplink.SendHand.after, uplink.SendHand.ptrs]
  simp only [uplink.places, List.length_append] at hlen
  simp only [gone, List.length_append]
  omega

end held

/-! ## A request a second -/

/-- A request for the fragment in the buffer at `p`. -/
def requestFor (s : Uplink) (p : Ptr) : RUdpFragmntReq :=
  { msgCode := MSG_CODE_REQUEST_FRAG, fragmntLost := (s.hist.heap p).msgHeader.frgmntIdx.val
    seqNum := (s.hist.heap p).msgHeader.seqNum.val }

/-- A second in which a request is answered, and a pass of `free_history` after it. -/
def second (req : RUdpFragmntReq) : List uplink.Action :=
  [.findFrag req, .lingerFrag, .sendReply, .tick, .freeHistory]

/-- The uplink after a second in which the fragment at `p` was asked for. -/
def asked (s : Uplink) (p : Ptr) : Uplink :=
  { s with hist := markReply (linger s.hist p) p, answer := .idle, clock := s.clock + 1 }

/-- The history begins with `p`, which is not due, and no request is in work. -/
structure Oldest (s : Uplink) (p : Ptr) (ps : List Ptr) : Prop where
  linked : Linked s.hist (p :: ps)
  due : s.clock < (s.hist.heap p).time
  idle : s.answer = .idle

section second

variable {s : Uplink} {p : Ptr} {ps : List Ptr}

theorem requestFor_asked (s : Uplink) (p : Ptr) : requestFor (asked s p) p = requestFor s p := by
  simp [requestFor, asked, asReply]

theorem Oldest.still (h : Oldest s p ps) : Oldest (asked s p) p ps := by
  have hlinger : Linked (linger s.hist p) (p :: ps) :=
    h.linked.write p (f := fun b => { b with time := b.time + 1 }) fun _ => rfl
  have htime : ((asked s p).hist.heap p).time = (s.hist.heap p).time + 1 := by
    simp [asked, asReply]
  refine ⟨hlinger.write p (f := asReply) fun _ => rfl, ?_, rfl⟩
  rw [htime]
  exact Nat.succ_lt_succ h.due

/-- A pass of `free_history` that finds the oldest buffer not due does nothing. -/
theorem Oldest.pass (h : Oldest s p ps) : uplink.step s .freeHistory = some s := by
  have hpeek : hist_peek_timed_head s.clock s.hist = none := by
    rw [hist_peek_timed_head, h.linked.chain.head, List.head?_cons, Option.filter_some, if_neg]
    rw [decide_eq_true_eq]
    exact Nat.not_le.mpr h.due
  have hfree : free_history s.clock MAX_BUFFER_ELEMS s.hist s.IotThrInFifo =
      some (s.hist, s.IotThrInFifo) := by
    unfold free_history
    rw [hpeek]
  simp only [uplink.step, hfree]

/-- The request finds the oldest buffer, so a second later it is as far from its deadline as
before. -/
theorem Oldest.round (h : Oldest s p ps) :
    run uplink.step s (second (requestFor s p)) = some (asked s p) ∧
      Guarded uplink.step PutsOff s (second (requestFor s p)) := by
  have hnext := h.still
  have hfind : hist_find_frag s.hist (requestFor s p).fragmntLost (requestFor s p).seqNum =
      some (some p) := by
    rw [hist_find_frag_eq h.linked, List.find?_cons_of_pos]
    simp [isFrag, requestFor]
  have hticked : run uplink.step s [.findFrag (requestFor s p), .lingerFrag, .sendReply, .tick] =
      some (asked s p) := by
    simp only [run, uplink.step, h.idle, hfind, Option.bind_some]
    rfl
  refine ⟨?_, ?_⟩
  · exact (run_snoc hticked).trans hnext.pass
  · simp only [Guarded, second, uplink.step, h.idle, hfind, PutsOff, true_and]
    refine ⟨?_, ?_⟩
    · have hhist : history (markReply (linger s.hist p) p) = p :: ps := hnext.linked.history_eq
      rw [hhist]
      rintro q ⟨rfl⟩
      exact hnext.due
    · split <;> trivial

theorem Oldest.rounds (h : Oldest s p ps) (n : Nat) : ∃ u,
    run uplink.step s (List.replicate n (second (requestFor s p))).flatten = some u ∧
      Guarded uplink.step PutsOff s
        (List.replicate n (second (requestFor s p))).flatten ∧
      u.clock = s.clock + n ∧ u.log = s.log ∧ u.IotThrInFifo = s.IotThrInFifo := by
  induction n generalizing s with
  | zero => exact ⟨s, rfl, trivial, rfl, rfl, rfl⟩
  | succ n ih =>
    obtain ⟨hfirst, hguard⟩ := h.round
    obtain ⟨u, hu, hrest, hclock, hlog, hfifo⟩ := ih h.still
    rw [requestFor_asked] at hu hrest
    rw [List.replicate_succ, List.flatten_cons]
    refine ⟨u, ?_, hguard.append hfirst hrest, ?_, hlog, hfifo⟩
    · rw [run_append, hfirst]
      exact hu
    · rw [hclock]
      simp only [asked]
      omega

end second

/-- One request a second stops the uplink. In every run from a state whose oldest buffer is not
due, in which the clock goes on only while that is so, no buffer leaves the history, so
`fusion_transmit_routine` sends no more messages than there were buffers elsewhere. And when no
request is in work, a request a second for the fragment of the oldest buffer is enough: for as long
as it comes the clock goes on, each pass of `free_history` takes nothing, and no buffer comes
back. -/
theorem a_request_a_second_stops_the_uplink (feed : Feed) (heap : Ptr → MsgBuf) (now : Nat)
    (s : Uplink) (hr : Reachable uplink.step (uplink.init feed heap now) s) (p : Ptr)
    (ps : List Ptr) (hhist : history s.hist = p :: ps) (hdue : s.clock < (s.hist.heap p).time) :
    (∀ as u, run uplink.step s as = some u → Guarded uplink.step PutsOff s as →
      history s.hist <+: history u.hist ∧
        u.log.length + (history s.hist).length ≤ s.log.length + 63) ∧
    (s.answer = .idle → ∀ n, ∃ u,
      run uplink.step s (List.replicate n (second (requestFor s p))).flatten = some u ∧
        Guarded uplink.step PutsOff s (List.replicate n (second (requestFor s p))).flatten ∧
        u.clock = s.clock + n ∧ u.log = s.log ∧ u.IotThrInFifo = s.IotThrInFifo) := by
  obtain ⟨hw, -⟩ := reachable_whole hr
  refine ⟨fun as u hrun hg => ?_, ?_⟩
  · have hstart : Held (p :: ps) s.log.length s := by
      refine ⟨hhist ▸ List.prefix_refl _, ?_, ?_⟩
      · rintro q ⟨rfl⟩
        exact hdue
      · simp only [gone, hhist, List.length_append]
        omega
    have hinv : Whole feed u ∧ Held (p :: ps) s.log.length u := by
      refine run_invariant_guarded (I := fun v => Whole feed v ∧ Held (p :: ps) s.log.length v) ?_
        ⟨hw, hstart⟩ hg hrun
      intro v a v' hv hok hstep
      obtain ⟨hw, hheld⟩ := hv
      have hm := uplink.moves_of_step hstep
      exact ⟨whole_moves hw hm, held_moves hw hheld hok hm⟩
    have hsent := hinv.2.sent
    have hle := gone_le hinv.1
    rw [hhist]
    exact ⟨hinv.2.line, by omega⟩
  · intro hidle
    have holdest : Oldest s p ps := ⟨hhist ▸ hw.linked, hdue, hidle⟩
    exact holdest.rounds

theorem idle_of_pending {answer : uplink.Answer} (h : answer.pending = none) :
    answer = .idle := by
  cases answer with
  | idle => rfl
  | found req pkt was => cases h
  | lingered req pkt was => cases h

/-- One datagram was sent 39 seconds ago, and its fragment is asked for once a second. -/
theorem a_buffer_kept_for_ever :
    ∃ s, run uplink.step (uplink.init uplink.numbered (fun _ => .zero) 5)
        (uplink.oneFrgmnt [7] ++ List.replicate 39 .tick) = some s ∧
      s.clock = 44 ∧ history s.hist = [0] ∧
      ∀ n, ∃ u, run uplink.step s (List.replicate n (second (requestFor s 0))).flatten = some u ∧
        u.clock = 44 + n ∧ u.IotThrInFifo.length = 62 := by
  have hrun : (run uplink.step (uplink.init uplink.numbered (fun _ => .zero) 5)
      (uplink.oneFrgmnt [7] ++ List.replicate 39 .tick)).map (fun s => (s.clock, history s.hist,
        (s.hist.heap 0).time, s.answer.pending, s.IotThrInFifo.length)) =
      some (44, [0], 45, none, 62) := by decide +kernel
  obtain ⟨s, hs, hstate⟩ := Option.map_eq_some_iff.mp hrun
  simp only [Prod.mk.injEq] at hstate
  obtain ⟨hclock, hhist, htime, hpending, hfifo⟩ := hstate
  obtain ⟨-, hkept⟩ := a_request_a_second_stops_the_uplink uplink.numbered (fun _ => .zero) 5 s
    ⟨_, hs⟩ 0 [] hhist (by rw [hclock, htime]; decide)
  refine ⟨s, hs, hclock, hhist, fun n => ?_⟩
  obtain ⟨u, hu, -, huclock, -, hufifo⟩ := hkept (idle_of_pending hpending) n
  exact ⟨u, hu, by rw [huclock, hclock], by rw [hufifo, hfifo]⟩

end held_history

end udp_service
