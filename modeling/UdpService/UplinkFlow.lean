-- What the threads of the uplink do together: they send what one thread alone
-- would send, at the pace at which buffers come back, and from every state
-- they can go on until all is sent.
import UdpService.UplinkReplies
import UdpService.Wire

open blocks runs

namespace udp_service

namespace uplink

open hs_udp_service r_udp wire

/-! ## One thread alone -/

/-- The messages of one thread that reads a datagram, cuts it and sends all its
fragments before it reads the next one. `pool n k` is what the buffer of
fragment `k` of the `n`-th datagram held before. -/
def oneThread (pool : Nat → Nat → MsgBuf) : Nat → Nat → List (List UInt8) → List MsgBuf
  | _, _, [] => []
  | n, txSeqNum, d :: ds =>
    messages (pool n) txSeqNum d ++ oneThread pool (n + 1) ((txSeqNum + 1) % 2 ^ 8) ds

/-- The fragments of the datagram with the number `n`. -/
def cut (n : Nat) (d : List UInt8) : List (Nat × Nat) :=
  (List.range (frgmntsOf d.length)).map fun i => (n, i)

/-- The fragments of all datagrams, the first of which has the number `n + 1`. -/
def cutAll : Nat → List (List UInt8) → List (Nat × Nat)
  | _, [] => []
  | n, d :: ds => cut (n + 1) d ++ cutAll (n + 1) ds

/-- The bytes of a fragment, for any buffer that it is filled into. -/
def frgmntBytes (reads : List (List UInt8)) (o : Nat × Nat) : List UInt8 :=
  bytesOf (fusion_header (filled (reads.getD (o.1 - 1) []) (o.1 % 2 ^ 8) o.2 .zero))

section oneThread

variable {reads : List (List UInt8)}

theorem cutAll_snoc (n : Nat) (d : List UInt8) :
    cutAll n (reads ++ [d]) = cutAll n reads ++ cut (n + reads.length + 1) d := by
  induction reads generalizing n with
  | nil => simp [cutAll]
  | cons e reads ih =>
    simp only [List.cons_append, cutAll, ih (n + 1), List.length_cons, List.append_assoc]
    rw [show n + 1 + reads.length + 1 = n + (reads.length + 1) + 1 by omega]

/-- No byte of a message depends on what its buffer held before. -/
theorem bytesOf_filled (d : List UInt8) (txSeqNum k : Nat) (b b' : MsgBuf) :
    bytesOf (fusion_header (filled d txSeqNum k b)) =
      bytesOf (fusion_header (filled d txSeqNum k b')) := rfl

theorem bytesOf_messages (pool : Nat → MsgBuf) (n : Nat) {d : List UInt8}
    (hd : d.length ≤ NET_PACKET_SIZE) (hget : reads[n]? = some d) :
    (messages pool (n % 2 ^ 8) d).map bytesOf = (cut (n + 1) d).map (frgmntBytes reads) := by
  have hseq : (n % 2 ^ 8 + 1) % 2 ^ 8 = (n + 1) % 2 ^ 8 := by omega
  rw [messages_eq pool _ hd, cut, List.map_map, List.map_map, hseq]
  apply List.map_congr_left
  intro i _
  simp only [Function.comp_apply, frgmntBytes, Nat.add_sub_cancel, List.getD_eq_getElem?_getD, hget,
    Option.getD_some]
  exact bytesOf_filled d _ i _ _

theorem bytesOf_oneThread (pool : Nat → Nat → MsgBuf) (ds : List (List UInt8)) (n : Nat)
    (hsize : ∀ d ∈ ds, d.length ≤ NET_PACKET_SIZE) (hget : reads.drop n = ds) :
    (oneThread pool n (n % 2 ^ 8) ds).map bytesOf = (cutAll n ds).map (frgmntBytes reads) := by
  induction ds generalizing n with
  | nil => rfl
  | cons d ds ih =>
    have hseq : (n % 2 ^ 8 + 1) % 2 ^ 8 = (n + 1) % 2 ^ 8 := by omega
    have hfirst : reads[n]? = some d := by
      rw [← List.head?_drop, hget]
      rfl
    have hrest : reads.drop (n + 1) = ds := by
      rw [← List.tail_drop, hget]
      rfl
    have hd := hsize d List.mem_cons_self
    simp only [oneThread, cutAll, List.map_append, hseq]
    rw [bytesOf_messages (pool n) n hd hfirst,
      ih (n + 1) (fun d hd => hsize d (List.mem_cons_of_mem _ hd)) hrest]

theorem Filled.bytes {o : Nat × Nat} {b : MsgBuf} (h : Filled reads o b) :
    bytesOf (fusion_header b) = frgmntBytes reads o := by
  obtain ⟨d, -, hd, -, -, hf⟩ := h
  have hbody : bytesOf (fusion_header b) = bytesOf (fusion_header (body b)) := rfl
  rw [hbody, ← hf]
  simp only [frgmntBytes, List.getD_eq_getElem?_getD, hd, Option.getD_some]
  exact bytesOf_filled d _ _ _ _

/-- A message with the code of data. -/
def asData (b : MsgBuf) : MsgBuf :=
  { b with msgHeader := { b.msgHeader with msgCode := MSG_CODE_REG_DATA } }

/-- With the code of data a buffer goes out as its fragment once its header is
complete. -/
theorem Filled.bytes_headed {o : Nat × Nat} {b : MsgBuf} (h : Filled reads o b) (hb : Headed b) :
    bytesOf (asData b) = frgmntBytes reads o := by
  calc bytesOf (asData b) = bytesOf (asData (body b)) := rfl
    _ = bytesOf (asData (body (fusion_header b))) := by rw [hb.fields]
    _ = bytesOf (fusion_header b) := rfl
    _ = frgmntBytes reads o := h.bytes

end oneThread

/-! ## The order of the fragments -/

/-- The fragments of the datagram that was read last that no buffer was filled
with. -/
def uncut (s : Uplink) : List (Nat × Nat) :=
  (List.range' s.rx.frgmntIdx (frgmntsOf (lastRead s).length - s.rx.frgmntIdx)).map
    fun i => (s.reads.length, i)

/-- What was sent, what waits and what is to be cut are the fragments of all
datagrams, in order, and no datagram was too large. -/
structure InOrder (s : Uplink) : Prop where
  line : s.log.map (·.owner) ++ (waiting s).map s.owner ++ uncut s = cutAll 0 s.reads
  sizes : ∀ d ∈ s.reads, d.length ≤ NET_PACKET_SIZE

section inOrder

variable {feed : Feed} {s s' : Uplink} {a : Action}

theorem inOrder_init (heap : Ptr → MsgBuf) (now : Nat) : InOrder (init feed heap now) :=
  ⟨by simp [init, uncut, lastRead, waiting, SendHand.before, Hand.after, cutAll, frgmntsOf],
    fun d hd => by cases hd⟩

theorem InOrder.keep (h : InOrder s) (hreads : s'.reads = s.reads) (hrx : s'.rx = s.rx)
    (hline : s'.log.map (·.owner) ++ (waiting s').map s'.owner =
      s.log.map (·.owner) ++ (waiting s).map s.owner) : InOrder s' := by
  refine ⟨?_, by rw [hreads]; exact h.sizes⟩
  have huncut : uncut s' = uncut s := by
    unfold uncut lastRead
    rw [hreads, hrx]
  rw [hline, huncut, hreads]
  exact h.line

theorem inOrder_moves (hw : Whole feed s) (hc : Carried s) (h : InOrder s) (hm : Moves s a s') :
    InOrder s' := by
  obtain ⟨k, hk⟩ := hc.read
  have hidx : s.rx.frgmntIdx = k := by rw [hk.rx]; rfl
  cases hm with
  | iotRecv d hand done size =>
    have hdone : uncut s = [] := by
      have hres := hk.rx ▸ done
      have hle := (lt_frgmntsOf (k := k) (n := (lastRead s).length)).not.mpr (by
        simp only [turn, MAX_MSG_SIZE] at hres
        omega)
      unfold uncut
      rw [hidx, Nat.sub_eq_zero_of_le (Nat.le_of_not_lt hle)]
      rfl
    have hline := h.line
    rw [hdone, List.append_nil] at hline
    refine ⟨?_, ?_⟩
    · rw [cutAll_snoc, ← hline]
      congr 1
      simp [uncut, lastRead, iot_read_eq, turn, cut, List.range_eq_range']
    · intro e he
      rcases List.mem_append.mp he with he | he
      · exact h.sizes e he
      · rw [List.mem_singleton.mp he]
        exact size
  | iotGet p ps hand fifo more =>
    refine h.keep rfl rfl ?_
    simp [waiting, hand, Hand.after]
  | iotFill p hand =>
    have hlt := hk.taken p hand
    have hfresh := hw.taken_fresh hand
    have hsame : ∀ q ∈ waiting s,
        Function.update s.owner p (s.reads.length, k) q = s.owner q := by
      intro q hq
      exact Function.update_of_ne (ne_of_mem_of_not_mem hq fun hp =>
        hfresh (List.mem_append_left _ hp)) _ _
    have huncut : uncut s = (s.reads.length, k) :: (List.range' (k + 1)
        (frgmntsOf (lastRead s).length - (k + 1))).map fun i => (s.reads.length, i) := by
      unfold uncut
      rw [hidx, show frgmntsOf (lastRead s).length - k =
        frgmntsOf (lastRead s).length - (k + 1) + 1 by omega, List.range'_succ]
      rfl
    have hwait : waiting s ++ [p] = s.fusion.before ++ s.IotThrOutFifo ++ [p] := by
      simp [waiting, hand, Hand.after]
    have hfilled : (waiting s ++ [p]).map (Function.update s.owner p (s.reads.length, k)) =
        (waiting s).map s.owner ++ [(s.reads.length, k)] := by
      rw [List.map_append, List.map_congr_left hsame, List.map_cons, Function.update_self]
      rfl
    refine ⟨?_, h.sizes⟩
    have hline := h.line
    rw [huncut] at hline
    rw [hwait] at hfilled
    simp only [waiting, uncut, lastRead, hk.fill hand, Hand.after, hidx, turn] at hfilled hline ⊢
    rw [hfilled, ← hline]
    simp only [List.append_assoc, List.singleton_append]
  | iotPut p hand =>
    refine h.keep rfl rfl ?_
    simp [waiting, hand, Hand.after]
  | fusionGet p ps hand fifo =>
    refine h.keep rfl rfl ?_
    simp [waiting, hand, fifo, SendHand.before]
  | fusionHeader p hand =>
    refine h.keep rfl rfl ?_
    simp [waiting, hand, SendHand.before]
  | fusionSend p hand =>
    refine h.keep rfl rfl ?_
    simp [waiting, hand, SendHand.before]
  | fusionPush p h' hand push =>
    refine h.keep rfl rfl ?_
    simp [waiting, hand, SendHand.before]
  | _ => exact h.keep rfl rfl rfl

theorem reachable_inOrder {heap : Ptr → MsgBuf} {now : Nat}
    (hr : Reachable step (init feed heap now) s) : (Whole feed s ∧ Carried s) ∧ InOrder s := by
  refine hr.invariant (I := fun s => (Whole feed s ∧ Carried s) ∧ InOrder s) ?_
    ⟨⟨whole_init feed heap now, carried_init heap now⟩, inOrder_init heap now⟩
  intro s a s' ⟨⟨hw, hc⟩, ho⟩ hstep
  have hm := moves_of_step hstep
  exact ⟨⟨whole_moves hw hm, carried_moves hw hc hm⟩, inOrder_moves hw hc ho hm⟩

theorem ReadTo.rest {k : Nat} (h : ReadTo s k) (pool : Nat → MsgBuf) :
    (iot_loop pool s.rx.res s.rx).map (fun b => bytesOf (fusion_header b)) =
      (uncut s).map (frgmntBytes s.reads) := by
  have hle := h.le
  have hidx : s.rx.frgmntIdx = k := by rw [h.rx]; rfl
  have hlast : s.reads.getD (s.reads.length - 1) [] = lastRead s := by
    rw [lastRead, List.getLastD_eq_getLast?, List.getLast?_eq_getElem?,
      List.getD_eq_getElem?_getD]
  have hfuel : frgmntsOf (lastRead s).length - k ≤ s.rx.res := by
    have hno := (lt_frgmntsOf (k := k + s.rx.res) (n := (lastRead s).length)).not.mpr (by
      rw [h.rx]
      simp only [turn, MAX_MSG_SIZE]
      omega)
    omega
  have hloop := @iot_loop_turn (lastRead s) (s.reads.length % 2 ^ 8) pool h.size
    (frgmntsOf (lastRead s).length - k) k s.rx.res (by omega) hfuel
  rw [← h.rx] at hloop
  rw [hloop, uncut, hidx, List.map_map, List.map_map]
  apply List.map_congr_left
  intro i _
  simp only [Function.comp_apply, frgmntBytes, hlast]
  exact bytesOf_filled _ _ _ _ _

end inOrder

/-! ## The codes -/

/-- The bytes that `fusion_transmit_routine` sent. -/
def sentBytes (s : Uplink) : List (List UInt8) := s.log.map fun e => bytesOf e.msg

/-- The same bytes, with the code of data in every header. -/
def sentAsData (s : Uplink) : List (List UInt8) := s.log.map fun e => bytesOf (asData e.msg)

/-- No reply put its code into a message of `fusion_transmit_routine`. -/
structure Unmarked (s : Uplink) : Prop where
  log : ∀ e ∈ s.log, e.msg.msgHeader.msgCode = MSG_CODE_REG_DATA
  headed : ∀ p, s.fusion = .headed p → (s.hist.heap p).msgHeader.msgCode = MSG_CODE_REG_DATA

/-- What holds while no pass of `free_history` takes a buffer that a reply is
pending for. -/
structure Settled (feed : Feed) (s : Uplink) : Prop where
  whole : Whole feed s
  carried : Carried s
  owned : PendingOwned s
  unmarked : Unmarked s

section codes

variable {feed : Feed} {s s' : Uplink} {a : Action}

theorem Unmarked.sent_eq (h : Unmarked s) : sentBytes s = sentAsData s := by
  apply List.map_congr_left
  intro e he
  have hdata : asData e.msg = e.msg := by
    unfold asData
    rw [← h.log e he]
  rw [hdata]

/-- Only the store of a reply puts another code into a message, and only when the
buffer that it was found in waits for its send again. -/
theorem unmarked_moves (hw : Whole feed s) (h : Unmarked s)
    (hfree : a = .sendReply → ∀ p ∈ s.answer.pending, s.fusion ≠ .headed p)
    (hm : Moves s a s') : Unmarked s' := by
  cases hm with
  | iotFill p hand =>
    refine ⟨h.log, fun q hq => ?_⟩
    rw [Hist.write_ne _ _ (hw.headed_ne hand hq)]
    exact h.headed q hq
  | fusionGet p ps hand fifo => exact ⟨h.log, fun q hq => by cases hq⟩
  | fusionHeader p hand =>
    refine ⟨h.log, fun q hq => ?_⟩
    cases hq
    rw [Hist.write_self]
    rfl
  | fusionSend p hand =>
    refine ⟨fun e he => ?_, fun q hq => by cases hq⟩
    rcases List.mem_append.mp he with he | he
    · exact h.log e he
    · rw [List.mem_singleton.mp he]
      exact h.headed p hand
  | fusionPush p h' hand push => exact ⟨h.log, fun q hq => by cases hq⟩
  | lingerFrag req pkt was pending =>
    refine ⟨h.log, fun q hq => ?_⟩
    have hold := h.headed q hq
    by_cases hqp : q = pkt
    · subst hqp
      rw [linger, Hist.write_self]
      exact hold
    · rw [linger, Hist.write_ne _ _ hqp]
      exact hold
  | sendReply req pkt was pending =>
    refine ⟨h.log, fun q hq => ?_⟩
    have hne : q ≠ pkt := by
      rintro rfl
      exact hfree rfl q (by rw [pending]; rfl) hq
    rw [markReply, Hist.write_ne _ _ hne]
    exact h.headed q hq
  | freeHistory h' fifo free =>
    refine ⟨h.log, fun q hq => ?_⟩
    rw [(hw.freed free).2.2]
    exact h.headed q hq
  | _ => exact ⟨h.log, h.headed⟩

theorem settled_init (heap : Ptr → MsgBuf) (now : Nat) : Settled feed (init feed heap now) := by
  refine ⟨whole_init feed heap now, carried_init heap now, trivial, ?_, ?_⟩
  · intro e he
    cases he
  · intro p hp
    cases hp

/-- The buffer of a pending reply is in the history, so it does not wait for its
send. -/
theorem Settled.step (h : Settled feed s) (hk : KeepsPending s a)
    (hstep : step s a = some s') : Settled feed s' := by
  have hm := moves_of_step hstep
  refine ⟨whole_moves h.whole hm, carried_moves h.whole h.carried hm,
    pendingOwned_moves h.whole h.owned hk hm, unmarked_moves h.whole h.unmarked ?_ hm⟩
  intro _ p hp hand
  exact h.whole.hand_fresh (Or.inr (by rw [hand]; exact List.mem_singleton_self p))
    (h.owned.mem hp) rfl

theorem settled_of_guarded {heap : Ptr → MsgBuf} {now : Nat} {as : List Action}
    (hr : run step (init feed heap now) as = some s)
    (hg : Guarded step KeepsPending (init feed heap now) as) : Settled feed s :=
  run_invariant_guarded (fun _ _ _ h hk hstep => h.step hk hstep) (settled_init heap now) hg hr

end codes

theorem oneThread_of_init {feed : Feed} {heap : Ptr → MsgBuf} {now : Nat} {s : Uplink}
    (hr : Reachable step (init feed heap now) s) (pool : Nat → Nat → MsgBuf) :
    (oneThread pool 0 0 s.reads).map bytesOf =
      sentAsData s ++
        (waiting s).map (fun p => bytesOf (fusion_header (s.hist.heap p))) ++
        (iot_loop (pool (s.reads.length - 1)) s.rx.res s.rx).map fun b =>
          bytesOf (fusion_header b) := by
  obtain ⟨⟨-, hc⟩, ho⟩ := reachable_inOrder hr
  obtain ⟨k, hk⟩ := hc.read
  have hall := bytesOf_oneThread pool s.reads 0 ho.sizes rfl
  have hlog : sentAsData s = (s.log.map (·.owner)).map (frgmntBytes s.reads) := by
    rw [sentAsData, List.map_map]
    apply List.map_congr_left
    intro e he
    obtain ⟨hfilled, hheaded⟩ := hc.contents.logged e he
    exact hfilled.bytes_headed hheaded
  have hwait : (waiting s).map (fun p => bytesOf (fusion_header (s.hist.heap p))) =
      ((waiting s).map s.owner).map (frgmntBytes s.reads) := by
    rw [List.map_map]
    apply List.map_congr_left
    intro p hp
    exact (hc.contents.waits p hp).bytes
  rw [hk.rest, hlog, hwait, ← List.map_append, ← List.map_append, ho.line]
  exact hall

/-- Whatever the order in which the threads take their turns and whatever the
buffers held before, the messages that were sent, then those that wait in a buffer,
then those that the inner loop still has to cut are, but for the code in a header
that was sent, what one thread alone would have sent for the datagrams that were
read. The codes are right, too, when no pass of `free_history` took a buffer that a
reply was pending for. -/
theorem the_uplink_sends_what_one_thread_would (feed : Feed) (heap : Ptr → MsgBuf) (now : Nat)
    (as : List Action) (s : Uplink) (hr : run step (init feed heap now) as = some s)
    (pool : Nat → Nat → MsgBuf) :
    (oneThread pool 0 0 s.reads).map bytesOf =
        sentAsData s ++
          (waiting s).map (fun p => bytesOf (fusion_header (s.hist.heap p))) ++
          (iot_loop (pool (s.reads.length - 1)) s.rx.res s.rx).map (fun b =>
            bytesOf (fusion_header b)) ∧
      (Guarded step KeepsPending (init feed heap now) as → sentBytes s = sentAsData s) :=
  ⟨oneThread_of_init ⟨as, hr⟩ pool, fun hg => (settled_of_guarded hr hg).unmarked.sent_eq⟩

/-- One datagram was sent, and one of 61 bytes has its first fragment in a
buffer and its second one to be cut. -/
theorem three_fragments_on_their_way :
    ∃ s, run step (init numbered (fun _ => .zero) 5)
        (oneFrgmnt [7] ++ [.iotRecv (List.replicate 61 1), .iotGet, .iotFill]) = some s ∧
      s.log.length = 1 ∧ waiting s = [1] ∧ s.rx.res = 1 ∧
      (oneThread (fun _ _ => .zero) 0 0 [[7], List.replicate 61 1]).map bytesOf =
        sentBytes s ++
          (waiting s).map (fun p => bytesOf (fusion_header (s.hist.heap p))) ++
          (iot_loop (fun _ => .zero) s.rx.res s.rx).map fun b => bytesOf (fusion_header b) := by
  have hrun : (run step (init numbered (fun _ => .zero) 5)
      (oneFrgmnt [7] ++ [.iotRecv (List.replicate 61 1), .iotGet, .iotFill])).map (fun s =>
        (s.log.length, waiting s, s.rx.res, s.reads)) =
      some (1, [1], 1, [[7], List.replicate 61 1]) := by decide +kernel
  obtain ⟨s, hs, hstate⟩ := Option.map_eq_some_iff.mp hrun
  simp only [Prod.mk.injEq] at hstate
  obtain ⟨hlog, hwait, hres, hreads⟩ := hstate
  refine ⟨s, hs, hlog, hwait, hres, ?_⟩
  obtain ⟨hall, hcodes⟩ := the_uplink_sends_what_one_thread_would numbered (fun _ => .zero) 5 _ s
    hs fun _ _ => .zero
  rw [← hreads, hall, hcodes (by decide +kernel)]

/-- The first buffer is found when it is due, comes back, and goes round once more.
Its header is complete when the reply puts its code into it. -/
def lateReply : List Action :=
  oneFrgmnt [7] ++ List.replicate 40 .tick ++
    [.findFrag ⟨MSG_CODE_REQUEST_FRAG, 0, 1⟩, .freeHistory, .lingerFrag] ++
    (List.range 62).flatMap (fun k => oneFrgmnt [UInt8.ofNat k]) ++
    [.iotRecv [9], .iotGet, .iotFill, .iotPut, .fusionGet, .fusionHeader, .sendReply, .fusionSend]

/-- So a message of data goes out with the code of a reply. -/
example : (run step (init numbered (fun _ => .zero) 0) lateReply).map (fun s =>
    decide (sentBytes s = sentAsData s)) = some false := by decide +kernel

/-! ## The pace -/

/-- The buffers that were sent and are kept since the time `t`. -/
def keptSince (t : Nat) (s : Uplink) : List Ptr :=
  ((history s.hist).filter fun p => t ≤ s.pushedAt p) ++ s.fusion.after

/-- Before the first of these buffers is due, every message since `n` messages
has its buffer among them. -/
structure Paced (t n : Nat) (s : Uplink) : Prop where
  since : t ≤ s.clock
  kept : s.clock < t + R_UDP_TIMEOUT → s.log.length ≤ n + (keptSince t s).length

section pace

variable {feed : Feed} {s s' : Uplink} {a : Action} {t n : Nat}

theorem keptSince_congr (hhist : history s'.hist = history s.hist)
    (hpushed : s'.pushedAt = s.pushedAt) (hhand : s'.fusion = s.fusion) :
    keptSince t s' = keptSince t s := by
  unfold keptSince
  rw [hhist, hpushed, hhand]

/-- A pass of `free_history` takes none of the buffers that are kept since `t`. -/
theorem Waits.kept (ht : Waits s) (hclock : s.clock < t + R_UDP_TIMEOUT) :
    (historyAfter s .freeHistory).filter (fun p => decide (t ≤ s.pushedAt p)) =
      (history s.hist).filter fun p => decide (t ≤ s.pushedAt p) := by
  have hnone : ((history s.hist).takeWhile fun p => (s.hist.heap p).time ≤ s.clock).filter
      (fun p => decide (t ≤ s.pushedAt p)) = [] := by
    apply List.filter_eq_nil_iff.mpr
    intro p hp
    have hexp := List.mem_takeWhile_imp hp
    have hdue : (s.hist.heap p).time ≤ s.clock := of_decide_eq_true hexp
    have hpushed := ht p ((List.takeWhile_sublist _).subset hp)
    rw [decide_eq_true_eq]
    omega
  conv_rhs => rw [← List.takeWhile_append_dropWhile (l := history s.hist)
    (p := fun p => decide ((s.hist.heap p).time ≤ s.clock))]
  rw [List.filter_append, hnone]
  rfl

theorem paced_moves (hw : Whole feed s) (ht : Waits s) (h : Paced t n s) (hm : Moves s a s') :
    Paced t n s' := by
  have hhist := history_moves hw hm
  have hsince := h.since
  have hkept := h.kept
  cases hm with
  | tick => exact ⟨Nat.le_succ_of_le hsince, fun hclock => hkept (Nat.lt_of_succ_lt hclock)⟩
  | fusionGet p ps hand fifo =>
    refine ⟨hsince, fun hclock => (hkept hclock).trans ?_⟩
    simp [keptSince, hand, SendHand.after]
  | fusionHeader p hand =>
    refine ⟨hsince, fun hclock => (hkept hclock).trans ?_⟩
    simp only [keptSince, hhist, historyAfter, hand, SendHand.after, le_refl]
  | fusionSend p hand =>
    refine ⟨hsince, fun hclock => ?_⟩
    have hold := hkept hclock
    simp only [keptSince, hand, SendHand.after, List.append_nil, List.length_append,
      List.length_singleton] at hold ⊢
    omega
  | fusionPush p h' hand push =>
    refine ⟨hsince, fun hclock => (hkept hclock).trans ?_⟩
    obtain ⟨hfresh, -⟩ := hw.push_ok hand
    have hsame : (history s.hist).filter
        (fun q => decide (t ≤ Function.update s.pushedAt p s.clock q)) =
        (history s.hist).filter fun q => decide (t ≤ s.pushedAt q) := by
      apply List.filter_congr
      intro q hq
      rw [Function.update_of_ne (ne_of_mem_of_not_mem hq hfresh)]
    simp [keptSince, hhist, historyAfter, hand, SendHand.ptrs, SendHand.after, hsame, hsince]
  | freeHistory h' fifo free =>
    refine ⟨hsince, fun hclock => (hkept hclock).trans ?_⟩
    simp only [keptSince, hhist, ht.kept hclock]
    exact Nat.le_refl _
  | _ =>
    refine ⟨hsince, fun hclock => (hkept hclock).trans ?_⟩
    rw [keptSince_congr hhist rfl rfl]

theorem Whole.keptSince_le (hw : Whole feed s) : (keptSince t s).length ≤ 63 := by
  have hlen := hw.length
  have hfilter := List.length_filter_le (fun p => decide (t ≤ s.pushedAt p)) (history s.hist)
  have hhand : s.fusion.after.length ≤ s.fusion.ptrs.length := by
    cases s.fusion <;> simp [SendHand.after, SendHand.ptrs]
  simp only [places, List.length_append] at hlen
  simp only [keptSince, List.length_append]
  omega

end pace

/-- The buffers bound the pace of the uplink: from any state that a run reaches,
`fusion_transmit_routine` sends no more than 63 messages before `R_UDP_TIMEOUT`
seconds are over, whatever the threads do and however much the devices send. The
answers to requests are not counted. -/
theorem no_more_than_63_messages_in_40_seconds (feed : Feed) (heap : Ptr → MsgBuf) (now : Nat)
    (s u : Uplink) (as : List Action) (hr : Reachable step (init feed heap now) s)
    (hrun : run step s as = some u) (hclock : u.clock < s.clock + R_UDP_TIMEOUT) :
    u.log.length ≤ s.log.length + 63 := by
  obtain ⟨hw, ht⟩ := reachable_whole hr
  have hinv : (Whole feed u ∧ Waits u) ∧ Paced s.clock s.log.length u := by
    refine run_invariant
      (I := fun v => (Whole feed v ∧ Waits v) ∧ Paced s.clock s.log.length v) ?_
      ⟨⟨hw, ht⟩, Nat.le_refl _, fun _ => Nat.le_add_right _ _⟩ hrun
    intro v a v' ⟨⟨hw, ht⟩, hp⟩ hstep
    have hm := moves_of_step hstep
    exact ⟨⟨whole_moves hw hm, waits_moves hw ht hm⟩, paced_moves hw ht hp hm⟩
  have hkept := hinv.2.kept hclock
  have hle := hinv.1.1.keptSince_le (t := s.clock)
  omega

/-- Sixty-three datagrams of one byte go out in one second, and then
`IotThrInFifo` is empty. -/
theorem sixty_three_messages_in_a_second :
    ∃ u, run step (init numbered (fun _ => .zero) 0)
        ((List.range 63).flatMap fun k => oneFrgmnt [UInt8.ofNat k]) = some u ∧
      u.log.length = 63 ∧ u.IotThrInFifo = [] ∧ u.log.length ≤ 0 + 63 := by
  have hrun : (run step (init numbered (fun _ => .zero) 0)
      ((List.range 63).flatMap fun k => oneFrgmnt [UInt8.ofNat k])).map (fun s =>
        (s.log.length, s.IotThrInFifo, s.clock)) = some (63, [], 0) := by decide +kernel
  obtain ⟨u, hu, hstate⟩ := Option.map_eq_some_iff.mp hrun
  simp only [Prod.mk.injEq] at hstate
  obtain ⟨hlog, hfifo, hclock⟩ := hstate
  refine ⟨u, hu, hlog, hfifo, ?_⟩
  exact no_more_than_63_messages_in_40_seconds numbered (fun _ => .zero) 0 _ u _ (.refl _) hu
    (by rw [hclock]; exact Nat.succ_pos _)

/-! ## The way on -/

/-- The action is a piece of an answer to a request. -/
def Action.isAnswer : Action → Bool
  | .findFrag _ => true
  | .lingerFrag => true
  | .sendReply => true
  | _ => false

/-- The uplink while no request is answered. -/
def unasked (s : Uplink) : Action → Option Uplink
  | .findFrag _ => none
  | .lingerFrag => none
  | .sendReply => none
  | a => step s a

theorem step_of_unasked {s s' : Uplink} {a : Action} (h : unasked s a = some s') :
    step s a = some s' ∧ a.isAnswer = false := by
  cases a with
  | findFrag req => cases h
  | lingerFrag => cases h
  | sendReply => cases h
  | _ => exact ⟨h, rfl⟩

theorem run_of_unasked {s u : Uplink} (h : Reachable unasked s u) :
    ∃ as, run step s as = some u ∧ ∀ a ∈ as, a.isAnswer = false :=
  h.lift (P := fun a => a.isAnswer = false) fun _ _ _ => step_of_unasked

/-- A run in which the thread of the devices does nothing. -/
structure Onward (s u : Uplink) : Prop where
  run : Reachable unasked s u
  reads : u.reads = s.reads
  rx : u.rx = s.rx
  iot : u.iot = s.iot

/-- The thread of fusion waits for the next buffer, and there is none. -/
structure Drained (s : Uplink) : Prop where
  fusion : s.fusion = .empty
  fifo : s.IotThrOutFifo = []

section onward

variable {feed : Feed} {s s' u v : Uplink} {a : Action}

theorem Whole.reachable (hw : Whole feed s) (hr : Reachable unasked s u) : Whole feed u :=
  hr.invariant (fun _ _ _ hw h => whole_moves hw (moves_of_step (step_of_unasked h).1)) hw

theorem Whole.unmarked (hw : Whole feed s) (h : Unmarked s) (hr : Reachable unasked s u) :
    Unmarked u := by
  refine (hr.invariant (I := fun v => Whole feed v ∧ Unmarked v) ?_ ⟨hw, h⟩).2
  intro v a v' ⟨hw, h⟩ hturn
  obtain ⟨hstep, hno⟩ := step_of_unasked hturn
  have hm := moves_of_step hstep
  refine ⟨whole_moves hw hm, unmarked_moves hw h ?_ hm⟩
  rintro rfl
  cases hno

theorem Onward.refl (s : Uplink) : Onward s s := ⟨.refl s, rfl, rfl, rfl⟩

theorem Onward.trans (h : Onward s u) (h' : Onward u v) : Onward s v :=
  ⟨h.run.trans h'.run, h'.reads.trans h.reads, h'.rx.trans h.rx, h'.iot.trans h.iot⟩

theorem Whole.push (hw : Whole feed s) {p : Ptr} (hand : s.fusion = .ready p) :
    ∃ u, Onward s u ∧ u.fusion = .empty ∧ u.IotThrOutFifo = s.IotThrOutFifo := by
  obtain ⟨hfresh, hroom⟩ := hw.push_ok hand
  obtain ⟨h', hpush, -⟩ := hist_push_frag_eq s.clock hw.linked hfresh hroom
  have hstep : unasked s .fusionPush = some { s with
      hist := h', fusion := .empty, pushedAt := Function.update s.pushedAt p s.clock } := by
    simp only [unasked, step, hand, hpush]
  exact ⟨_, ⟨(Reachable.refl s).next hstep, rfl, rfl, rfl⟩, rfl, rfl⟩

theorem Whole.send (hw : Whole feed s) {p : Ptr} (hand : s.fusion = .headed p) :
    ∃ u, Onward s u ∧ u.fusion = .empty ∧ u.IotThrOutFifo = s.IotThrOutFifo := by
  have hstep : unasked s .fusionSend = some { s with
      fusion := .ready p, log := s.log ++ [⟨s.owner p, s.hist.heap p⟩] } := by
    simp only [unasked, step, hand]
  have hsent := (Reachable.refl s).next hstep
  obtain ⟨u, hu, hempty, hfifo⟩ := (hw.reachable hsent).push rfl
  exact ⟨u, Onward.trans ⟨hsent, rfl, rfl, rfl⟩ hu, hempty, hfifo⟩

theorem Whole.fusion_ends (hw : Whole feed s) :
    ∃ u, Onward s u ∧ u.fusion = .empty ∧ u.IotThrOutFifo = s.IotThrOutFifo := by
  cases hand : s.fusion with
  | empty => exact ⟨s, .refl s, hand, rfl⟩
  | ready p => exact hw.push hand
  | headed p => exact hw.send hand
  | taken p =>
    have hstep : unasked s .fusionHeader = some { s with
        hist := s.hist.write p fusion_header, fusion := .headed p } := by
      simp only [unasked, step, hand]
    have hheaded := (Reachable.refl s).next hstep
    obtain ⟨u, hu, hempty, hfifo⟩ := (hw.reachable hheaded).send rfl
    exact ⟨u, Onward.trans ⟨hheaded, rfl, rfl, rfl⟩ hu, hempty, hfifo⟩

theorem Whole.drains (hw : Whole feed s) : ∃ u, Onward s u ∧ Drained u := by
  induction hlen : s.IotThrOutFifo.length generalizing s with
  | zero =>
    obtain ⟨u, hu, hempty, hfifo⟩ := hw.fusion_ends
    refine ⟨u, hu, hempty, ?_⟩
    rw [hfifo]
    exact List.length_eq_zero_iff.mp hlen
  | succ n ih =>
    obtain ⟨u, hu, hempty, hfifo⟩ := hw.fusion_ends
    obtain ⟨p, ps, hps⟩ := List.length_pos_iff_exists_cons.mp (by rw [hlen]; exact Nat.succ_pos n)
    have hout : u.IotThrOutFifo = p :: ps := hfifo.trans hps
    have hstep : unasked u .fusionGet = some { u with
        fusion := .taken p, IotThrOutFifo := ps } := by
      simp only [unasked, step, hempty, hout]
    have hget : Onward u _ := ⟨(Reachable.refl u).next hstep, rfl, rfl, rfl⟩
    have hgone := hu.trans hget
    obtain ⟨v, hv, hdrained⟩ := ih (hw.reachable hgone.run) (by
      rw [hps] at hlen
      exact Nat.succ.inj hlen)
    exact ⟨v, hgone.trans hv, hdrained⟩

theorem run_ticks (s : Uplink) (n : Nat) :
    run unasked s (List.replicate n .tick) = some { s with clock := s.clock + n } := by
  induction n generalizing s with
  | zero => rfl
  | succ n ih =>
    rw [List.replicate_succ, run_cons_eq_some]
    refine ⟨_, rfl, ?_⟩
    rw [ih, Nat.add_assoc, Nat.add_comm 1 n]

/-- Once every deadline is over, a pass of `free_history` takes all of the
history, and every buffer is back. -/
theorem Whole.comes_back (hw : Whole feed s) (hd : Drained s) (hand : s.iot = .empty) :
    ∃ u, Onward s u ∧ Drained u ∧ u.log = s.log ∧ u.IotThrInFifo.Perm feed.ptrs := by
  obtain ⟨n, hn⟩ : ∃ n, ∀ p ∈ history s.hist, (s.hist.heap p).time ≤ s.clock + n := by
    refine ⟨((history s.hist).map fun p => (s.hist.heap p).time).sum, fun p hp => ?_⟩
    have hle := List.le_sum_of_mem (List.mem_map_of_mem (f := fun p => (s.hist.heap p).time) hp)
    omega
  have hwait := (Reachable.refl s).trans ⟨_, run_ticks s n⟩
  obtain ⟨h', hfree, -⟩ := free_history_eq (s.clock + n) hw.linked
    (Nat.le_of_lt hw.linked.short) s.IotThrInFifo
  have hall : ((history s.hist).takeWhile fun p =>
      decide ((s.hist.heap p).time ≤ s.clock + n)) = history s.hist :=
    List.takeWhile_eq_self_iff.mpr fun p hp => decide_eq_true (hn p hp)
  rw [hall] at hfree
  have hstep : unasked { s with clock := s.clock + n } .freeHistory = some { s with
      clock := s.clock + n, hist := h', IotThrInFifo := s.IotThrInFifo ++ history s.hist } := by
    simp only [unasked, step, hfree]
  have hperm := hw.perm
  simp only [places, hd.fifo, hd.fusion, hand, Hand.ptrs, SendHand.ptrs, List.append_nil] at hperm
  exact ⟨_, ⟨hwait.next hstep, rfl, rfl, rfl⟩, ⟨hd.fusion, hd.fifo⟩, rfl, hperm⟩

theorem Whole.refills (hw : Whole feed s) (hd : Drained s) (hand : s.iot = .empty) :
    ∃ u, Onward s u ∧ Drained u ∧ ∃ p ps, u.IotThrInFifo = p :: ps := by
  obtain ⟨u, hu, hdu, -, hback⟩ := hw.comes_back hd hand
  refine ⟨u, hu, hdu, List.length_pos_iff_exists_cons.mp ?_⟩
  rw [hback.length_eq, feed.count]
  decide

/-- A turn of the inner loop lowers what is left of the datagram. -/
theorem iot_fill_res (l : RxLoop) (b : MsgBuf) :
    (iot_fill l b).1.res ≤ l.res ∧ (0 < l.res → (iot_fill l b).1.res < l.res) := by
  have hres : (iot_fill l b).1.res = l.res - 60 := by
    unfold iot_fill
    by_cases h : MAX_MSG_SIZE < l.res
    · rw [if_pos h, if_pos h]
      rfl
    · rw [if_neg h, if_neg h]
      simp only [MAX_MSG_SIZE] at h ⊢
      omega
  omega

theorem iot_turn_ends {p : Ptr} (hand : s.iot = .taken p) : ∃ u, Reachable unasked s u ∧
    u.reads = s.reads ∧ u.rx = (iot_fill s.rx (s.hist.heap p)).1 ∧ u.iot = .empty := by
  have hfill : unasked s .iotFill = some { s with
      hist := s.hist.write p fun b => (iot_fill s.rx b).2
      rx := (iot_fill s.rx (s.hist.heap p)).1
      iot := .ready p
      owner := Function.update s.owner p (s.reads.length, s.rx.frgmntIdx) } := by
    simp only [unasked, step, hand]
  have hput : unasked { s with
      hist := s.hist.write p fun b => (iot_fill s.rx b).2
      rx := (iot_fill s.rx (s.hist.heap p)).1
      iot := .ready p
      owner := Function.update s.owner p (s.reads.length, s.rx.frgmntIdx) } .iotPut = some { s with
        hist := s.hist.write p fun b => (iot_fill s.rx b).2
        rx := (iot_fill s.rx (s.hist.heap p)).1
        iot := .empty
        IotThrOutFifo := s.IotThrOutFifo ++ [p]
        owner := Function.update s.owner p (s.reads.length, s.rx.frgmntIdx) } := rfl
  exact ⟨_, ((Reachable.refl s).next hfill).next hput, rfl, rfl, rfl⟩

theorem Whole.finishes (hw : Whole feed s) (hand : s.iot = .empty) : ∃ u, Reachable unasked s u ∧
    u.reads = s.reads ∧ u.iot = .empty ∧ u.rx.res = 0 ∧ Drained u := by
  induction hres : s.rx.res using Nat.strong_induction_on generalizing s with
  | _ n ih =>
    subst hres
    obtain ⟨u, hu, hd⟩ := hw.drains
    rcases Nat.eq_zero_or_pos s.rx.res with hzero | hpos
    · exact ⟨u, hu.run, hu.reads, hu.iot.trans hand, by rw [hu.rx]; exact hzero, hd⟩
    · -- One more fragment, then the rest.
      obtain ⟨v, hv, hdv, p, ps, hfifo⟩ := (hw.reachable hu.run).refills hd (hu.iot.trans hand)
      have huv := hu.trans hv
      have hmore : 0 < v.rx.res := by
        rw [huv.rx]
        exact hpos
      have hget : unasked v .iotGet = some { v with iot := .taken p, IotThrInFifo := ps } := by
        simp only [unasked, step, huv.iot.trans hand, hfifo, hmore, if_true]
      obtain ⟨w, hw', hreads, hrx, hidle⟩ := iot_turn_ends (s := { v with
        iot := .taken p, IotThrInFifo := ps }) rfl
      have hrun := (huv.run.next hget).trans hw'
      have hless : w.rx.res < s.rx.res := by
        rw [hrx, ← huv.rx]
        exact (iot_fill_res v.rx _).2 hmore
      obtain ⟨x, hx, hxreads, hrest⟩ := ih w.rx.res hless (hw.reachable hrun) hidle rfl
      exact ⟨x, hrun.trans hx, hxreads.trans (hreads.trans huv.reads), hrest⟩

theorem Whole.iot_ends (hw : Whole feed s) : ∃ u, Reachable unasked s u ∧
    u.reads = s.reads ∧ u.iot = .empty ∧ u.rx.res = 0 ∧ Drained u := by
  cases hand : s.iot with
  | empty => exact hw.finishes hand
  | ready p =>
    have hput : unasked s .iotPut = some { s with
        iot := .empty, IotThrOutFifo := s.IotThrOutFifo ++ [p] } := by
      simp only [unasked, step, hand]
    have hrun := (Reachable.refl s).next hput
    obtain ⟨u, hu, hrest⟩ := (hw.reachable hrun).finishes rfl
    exact ⟨u, hrun.trans hu, hrest⟩
  | taken p =>
    obtain ⟨v, hv, hreads, -, hidle⟩ := iot_turn_ends hand
    obtain ⟨u, hu, hureads, hrest⟩ := (hw.reachable hv).finishes hidle
    exact ⟨u, hv.trans hu, hureads.trans hreads, hrest⟩

theorem Drained.sent (hd : Drained s) {heap : Ptr → MsgBuf} {now : Nat}
    (hr : Reachable step (init feed heap now) s) (hand : s.iot = .empty) (hres : s.rx.res = 0)
    (pool : Nat → Nat → MsgBuf) :
    sentAsData s = (oneThread pool 0 0 s.reads).map bytesOf := by
  have hsent := oneThread_of_init hr pool
  rw [hres] at hsent
  simpa [waiting, hand, hd.fusion, hd.fifo, SendHand.before, Hand.after, iot_loop] using hsent.symm

/-- All that was read and then one datagram more can be sent while no request is
answered. -/
theorem goes_on {heap : Ptr → MsgBuf} {now : Nat} (hr : Reachable step (init feed heap now) s)
    {d : List UInt8} (hd : d.length ≤ NET_PACKET_SIZE) (pool : Nat → Nat → MsgBuf) :
    ∃ as u, run step s as = some u ∧ (∀ a ∈ as, a.isAnswer = false) ∧ u.reads = s.reads ++ [d] ∧
      sentAsData u = (oneThread pool 0 0 (s.reads ++ [d])).map bytesOf ∧
      (Unmarked s → sentBytes u = sentAsData u) := by
  obtain ⟨hw, -⟩ := reachable_whole hr
  obtain ⟨v, hv, hreads, hidle, hres, -⟩ := hw.iot_ends
  have hrecv : unasked v (.iotRecv d) = some { v with
      rx := iot_read v.rx.txSeqNum d, reads := v.reads ++ [d] } := by
    simp only [unasked, step, hidle, hres, hd, and_self, if_true]
  have hread := hv.next hrecv
  obtain ⟨u, hu, hureads, huidle, hures, hdrained⟩ := (hw.reachable hread).iot_ends
  obtain ⟨as, has, hall⟩ := run_of_unasked (hread.trans hu)
  have hsum : u.reads = s.reads ++ [d] := by
    rw [hureads, hreads]
  refine ⟨as, u, has, hall, hsum, ?_, fun h => (hw.unmarked h (hread.trans hu)).sent_eq⟩
  rw [← hsum]
  exact hdrained.sent (hr.trans ⟨as, has⟩) huidle hures pool

end onward

/-- The uplink cannot get stuck. From every state that a run reaches the threads
can send all that was read and then the next datagram of a device, whatever it
is. But for the codes, what is sent is again what one thread alone would send. The
codes are right, too, when no pass of `free_history` in the run took a buffer that a
reply was pending for. -/
theorem the_uplink_never_gets_stuck (feed : Feed) (heap : Ptr → MsgBuf) (now : Nat)
    (as : List Action) (s : Uplink) (hr : run step (init feed heap now) as = some s)
    (d : List UInt8) (hd : d.length ≤ NET_PACKET_SIZE) (pool : Nat → Nat → MsgBuf) :
    ∃ bs u, run step s bs = some u ∧ u.reads = s.reads ++ [d] ∧
      sentAsData u = (oneThread pool 0 0 (s.reads ++ [d])).map bytesOf ∧
      (Guarded step KeepsPending (init feed heap now) as → sentBytes u = sentAsData u) := by
  obtain ⟨bs, u, hbs, -, hreads, hsent, hcodes⟩ := goes_on ⟨as, hr⟩ hd pool
  exact ⟨bs, u, hbs, hreads, hsent, fun hg => hcodes (settled_of_guarded hr hg).unmarked⟩

/-- The last buffer holds the first fragment of a datagram, and the second one has to
wait for the history. -/
theorem no_buffer_for_the_second_fragment :
    ∃ s, run step (init numbered (fun _ => .zero) 0)
        (((List.range 62).flatMap fun k => oneFrgmnt [UInt8.ofNat k]) ++
          [.iotRecv (List.replicate 61 1), .iotGet, .iotFill, .iotPut]) = some s ∧
      s.IotThrInFifo = [] ∧ s.rx.res = 1 ∧ ∃ bs u, run step s bs = some u ∧
        u.reads = s.reads ++ [[5]] ∧
        sentBytes u = (oneThread (fun _ _ => .zero) 0 0 (s.reads ++ [[5]])).map bytesOf := by
  have hrun : (run step (init numbered (fun _ => .zero) 0)
      (((List.range 62).flatMap fun k => oneFrgmnt [UInt8.ofNat k]) ++
        [.iotRecv (List.replicate 61 1), .iotGet, .iotFill, .iotPut])).map (fun s =>
        (s.IotThrInFifo, s.rx.res)) = some ([], 1) := by decide +kernel
  obtain ⟨s, hs, hstate⟩ := Option.map_eq_some_iff.mp hrun
  obtain ⟨hfifo, hres⟩ := Prod.mk.inj hstate
  obtain ⟨bs, u, hbs, hreads, hsent, hcodes⟩ := the_uplink_never_gets_stuck numbered
    (fun _ => .zero) 0 _ s hs [5] (by decide) fun _ _ => .zero
  exact ⟨s, hs, hfifo, hres, bs, u, hbs, hreads, (hcodes (by decide +kernel)).trans hsent⟩

/-- From every state that a run reaches, all that was read can be sent and every buffer
can be back in `IotThrInFifo`. What is sent is what one thread alone would send, but for
the codes, and these are right when no pass of `free_history` in the run took a buffer
that a reply was pending for. -/
theorem the_buffers_all_come_back (feed : Feed) (heap : Ptr → MsgBuf) (now : Nat)
    (as : List Action) (s : Uplink) (hr : run step (init feed heap now) as = some s)
    (pool : Nat → Nat → MsgBuf) :
    ∃ bs u, run step s bs = some u ∧ u.reads = s.reads ∧
      sentAsData u = (oneThread pool 0 0 s.reads).map bytesOf ∧
      (Guarded step KeepsPending (init feed heap now) as → sentBytes u = sentAsData u) ∧
      u.IotThrInFifo.Perm feed.ptrs := by
  have hreach : Reachable step (init feed heap now) s := ⟨as, hr⟩
  obtain ⟨hw, -⟩ := reachable_whole hreach
  obtain ⟨v, hv, hreads, hidle, hres, hdrained⟩ := hw.iot_ends
  obtain ⟨u, hu, -, hlog, hback⟩ := (hw.reachable hv).comes_back hdrained hidle
  obtain ⟨first, hfirst, -⟩ := run_of_unasked hv
  obtain ⟨bs, hbs, -⟩ := run_of_unasked (hv.trans hu.run)
  have hsame : sentAsData u = sentAsData v := by
    unfold sentAsData
    rw [hlog]
  refine ⟨bs, u, hbs, hu.reads.trans hreads, ?_, fun hg => ?_, hback⟩
  · rw [hsame, ← hreads]
    exact hdrained.sent (hreach.trans ⟨first, hfirst⟩) hidle hres pool
  · exact (hw.unmarked (settled_of_guarded hr hg).unmarked (hv.trans hu.run)).sent_eq

/-- Two datagrams were sent, and the first fragment of a third one waits. -/
theorem three_buffers_come_back :
    ∃ s, run step (init numbered (fun _ => .zero) 0) (oneFrgmnt [1] ++ oneFrgmnt [2] ++
        [.iotRecv (List.replicate 61 1), .iotGet, .iotFill, .iotPut]) = some s ∧
      s.IotThrInFifo.length = 60 ∧ ∃ bs u, run step s bs = some u ∧ u.reads = s.reads ∧
        sentBytes u = (oneThread (fun _ _ => .zero) 0 0 s.reads).map bytesOf ∧
        u.IotThrInFifo.Perm (List.range 63) := by
  have hrun : (run step (init numbered (fun _ => .zero) 0) (oneFrgmnt [1] ++ oneFrgmnt [2] ++
      [.iotRecv (List.replicate 61 1), .iotGet, .iotFill, .iotPut])).map
      (fun s => s.IotThrInFifo.length) = some 60 := by decide +kernel
  obtain ⟨s, hs, hlen⟩ := Option.map_eq_some_iff.mp hrun
  obtain ⟨bs, u, hbs, hreads, hsent, hcodes, hback⟩ := the_buffers_all_come_back numbered
    (fun _ => .zero) 0 _ s hs fun _ _ => .zero
  exact ⟨s, hs, hlen, bs, u, hbs, hreads, (hcodes (by decide +kernel)).trans hsent, hback⟩

end uplink

end udp_service
