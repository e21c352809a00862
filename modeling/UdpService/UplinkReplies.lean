-- What the buffers of the uplink carry, and what a request is answered with.
-- The fragments go out in the order they were cut, so the history holds them
-- in this order, and the search of a reply meets the oldest one first.
import UdpService.Uplink

open blocks runs

namespace udp_service

namespace uplink

open hs_udp_service r_udp

/-! ## What a buffer carries -/

/-- What a message carries besides its code. -/
def body (b : MsgBuf) : MsgBuf :=
  { b with msgHeader := { b.msgHeader with msgCode := 0 }, time := 0, next := none }

theorem fields_of_body {b b' : MsgBuf} (h : body b = body b') :
    b.msgHeader.frgmntIdx = b'.msgHeader.frgmntIdx ∧ b.msgHeader.frgmnts = b'.msgHeader.frgmnts ∧
      b.msgHeader.seqNum = b'.msgHeader.seqNum ∧ b.msgHeader.size = b'.msgHeader.size ∧
      b.msgLen = b'.msgLen ∧ b.data = b'.data := by
  simp only [body, MsgBuf.mk.injEq, MsgHeader.mk.injEq] at h
  obtain ⟨⟨-, hidx, hfr, hseq, hsize⟩, hdata, hlen, -⟩ := h
  exact ⟨hidx, hfr, hseq, hsize, hlen, hdata⟩

/-- The buffer carries fragment `o.2` of datagram `o.1`: to fill it once more
would change nothing. -/
def Filled (reads : List (List UInt8)) (o : Nat × Nat) (b : MsgBuf) : Prop :=
  ∃ d, 0 < o.1 ∧ reads[o.1 - 1]? = some d ∧ d.length ≤ NET_PACKET_SIZE ∧
    o.2 < frgmntsOf d.length ∧ filled d (o.1 % 2 ^ 8) o.2 (body b) = body b

/-- The place of a fragment in the order in which they are cut. A datagram has
fewer than 32. -/
def ticket (o : Nat × Nat) : Nat := 32 * o.1 + o.2

/-- The header of the buffer is complete, though a reply may have put its own
code into it. -/
structure Headed (b : MsgBuf) : Prop where
  fields : body (fusion_header b) = body b
  code : b.msgHeader.msgCode ≠ MSG_CODE_REQUEST_FRAG

/-- The buffer that waits to be filled. -/
def Hand.before : Hand → List Ptr
  | .taken p => [p]
  | _ => []

/-- The buffer that was filled. -/
def Hand.after : Hand → List Ptr
  | .ready p => [p]
  | _ => []

/-- The buffer that waits to be sent. -/
def SendHand.before : SendHand → List Ptr
  | .taken p => [p]
  | .headed p => [p]
  | _ => []

/-- The buffer that was sent. -/
def SendHand.after : SendHand → List Ptr
  | .ready p => [p]
  | _ => []

/-- The filled buffers that were not sent. -/
def waiting (s : Uplink) : List Ptr := s.fusion.before ++ s.IotThrOutFifo ++ s.iot.after

/-- The buffers that were sent and are not free again. -/
def gone (s : Uplink) : List Ptr := history s.hist ++ s.fusion.after

/-- What the buffers carry: the tickets ascend over all that was sent and then
over all that waits, every buffer that waits is filled with its fragment, and
every buffer that was sent still carries what was sent. -/
structure Contents (reads : List (List UInt8)) (next : Nat) (log : List Transmission)
    (waiting gone : List Ptr) (owner : Ptr → Nat × Nat) (heap : Ptr → MsgBuf) : Prop where
  ascending : (log.map (fun e => ticket e.owner) ++
    waiting.map fun p => ticket (owner p)).Pairwise (· < ·)
  below : ∀ t ∈ log.map (fun e => ticket e.owner) ++ waiting.map fun p => ticket (owner p),
    t < next
  goneAscending : (gone.map fun p => ticket (owner p)).Pairwise (· < ·)
  waits : ∀ p ∈ waiting, Filled reads (owner p) (heap p)
  sent : ∀ p ∈ gone, ∃ e ∈ log, e.owner = owner p ∧ body e.msg = body (heap p)
  logged : ∀ e ∈ log, Filled reads e.owner e.msg ∧ Headed e.msg

section contents

variable {reads : List (List UInt8)} {next next' : Nat} {log : List Transmission}
  {wait gone gone' : List Ptr} {owner : Ptr → Nat × Nat} {heap heap' : Ptr → MsgBuf} {p : Ptr}

theorem reads_append {j : Nat} {d : List UInt8} (h : reads[j]? = some d) (l : List (List UInt8)) :
    (reads ++ l)[j]? = some d := by
  rw [List.getElem?_append_left (List.getElem?_eq_some_iff.mp h).1]
  exact h

theorem Filled.read {o : Nat × Nat} {b : MsgBuf} (h : Filled reads o b) (d : List UInt8) :
    Filled (reads ++ [d]) o b := by
  obtain ⟨d', hpos, hd', hrest⟩ := h
  exact ⟨d', hpos, reads_append hd' [d], hrest⟩

/-- To complete the header of a filled buffer stores what a fill would store. -/
theorem Filled.header {o : Nat × Nat} {b : MsgBuf} (h : Filled reads o b) :
    Filled reads o (fusion_header b) := by
  obtain ⟨d, hpos, hd, hle, hi, hb⟩ := h
  refine ⟨d, hpos, hd, hle, hi, ?_⟩
  have hlen : (frgmntOf d o.2).length = b.msgLen := congrArg MsgBuf.msgLen hb
  have hseq : o.1 % 2 ^ 8 = b.seqNum := congrArg MsgBuf.seqNum hb
  have hfr : Fin.ofNat 32 (frgmntsOf d.length) = b.msgHeader.frgmnts :=
    congrArg (fun b : MsgBuf => b.msgHeader.frgmnts) hb
  have hidx : Fin.ofNat 32 o.2 = b.msgHeader.frgmntIdx :=
    congrArg (fun b : MsgBuf => b.msgHeader.frgmntIdx) hb
  have hdata : Buffer.padded MAX_MSG_SIZE 0 (frgmntOf d o.2) = b.data := congrArg MsgBuf.data hb
  simp only [filled, body, fusion_header, hlen, hseq, hfr, hidx, hdata]

theorem headed_header (b : MsgBuf) : Headed (fusion_header b) := ⟨rfl, by simp [fusion_header]⟩

theorem Headed.congr {b b' : MsgBuf} (h : Headed b) (hb : body b' = body b)
    (hcode : b'.msgHeader.msgCode ≠ MSG_CODE_REQUEST_FRAG) : Headed b' := by
  refine ⟨?_, hcode⟩
  calc body (fusion_header b') = body (fusion_header (body b')) := rfl
    _ = body (fusion_header (body b)) := by rw [hb]
    _ = body b := h.fields
    _ = body b' := hb.symm

theorem Contents.read (h : Contents reads next log wait gone owner heap) (d : List UInt8)
    (hn : next ≤ next') : Contents (reads ++ [d]) next' log wait gone owner heap where
  ascending := h.ascending
  below t ht := Nat.lt_of_lt_of_le (h.below t ht) hn
  goneAscending := h.goneAscending
  waits p hp := (h.waits p hp).read d
  sent := h.sent
  logged e he := ⟨(h.logged e he).1.read d, (h.logged e he).2⟩

/-- Stores into times, links and codes change nothing that is carried. -/
theorem Contents.congr (h : Contents reads next log wait gone owner heap)
    (hb : ∀ p ∈ wait ++ gone, body (heap' p) = body (heap p)) :
    Contents reads next log wait gone owner heap' where
  ascending := h.ascending
  below := h.below
  goneAscending := h.goneAscending
  waits p hp := by
    have hp' := h.waits p hp
    unfold Filled at hp' ⊢
    rw [hb p (List.mem_append_left _ hp)]
    exact hp'
  sent p hp := by
    rw [hb p (List.mem_append_right _ hp)]
    exact h.sent p hp
  logged := h.logged

theorem Contents.fill {o : Nat × Nat} {b : MsgBuf}
    (h : Contents reads next log wait gone owner heap) (hp : p ∉ wait ++ gone)
    (ho : ticket o = next) (hb : Filled reads o b) :
    Contents reads (next + 1) log (wait ++ [p]) gone (Function.update owner p o)
      (Function.update heap p b) := by
  have howner : ∀ q ∈ wait ++ gone, Function.update owner p o q = owner q := by
    intro q hq
    exact Function.update_of_ne (ne_of_mem_of_not_mem hq hp) _ _
  have hheap : ∀ q ∈ wait ++ gone, Function.update heap p b q = heap q := by
    intro q hq
    exact Function.update_of_ne (ne_of_mem_of_not_mem hq hp) _ _
  have hwait : (wait ++ [p]).map (fun q => ticket (Function.update owner p o q)) =
      wait.map (fun q => ticket (owner q)) ++ [next] := by
    rw [List.map_append, List.map_cons, Function.update_self, ho]
    congr 1
    exact List.map_congr_left fun q hq => by rw [howner q (List.mem_append_left _ hq)]
  have hgone : gone.map (fun q => ticket (Function.update owner p o q)) =
      gone.map fun q => ticket (owner q) :=
    List.map_congr_left fun q hq => by rw [howner q (List.mem_append_right _ hq)]
  constructor
  · rw [hwait, ← List.append_assoc, List.pairwise_append]
    refine ⟨h.ascending, List.pairwise_singleton _ _, fun t ht u hu => ?_⟩
    rw [List.mem_singleton.mp hu]
    exact h.below t ht
  · intro t ht
    rw [hwait, ← List.append_assoc, List.mem_append, List.mem_singleton] at ht
    rcases ht with ht | rfl
    · exact Nat.lt_succ_of_lt (h.below t ht)
    · exact Nat.lt_succ_self _
  · rw [hgone]
    exact h.goneAscending
  · intro q hq
    rcases List.mem_append.mp hq with hq | hq
    · rw [howner q (List.mem_append_left _ hq), hheap q (List.mem_append_left _ hq)]
      exact h.waits q hq
    · rw [List.mem_singleton.mp hq, Function.update_self, Function.update_self]
      exact hb
  · intro q hq
    rw [howner q (List.mem_append_right _ hq), hheap q (List.mem_append_right _ hq)]
    exact h.sent q hq
  · exact h.logged

theorem Contents.header (h : Contents reads next log (p :: wait) gone owner heap)
    (hp : p ∉ wait ++ gone) : Contents reads next log (p :: wait) gone owner
      (Function.update heap p (fusion_header (heap p))) := by
  have hheap : ∀ q ∈ wait ++ gone,
      Function.update heap p (fusion_header (heap p)) q = heap q := by
    intro q hq
    exact Function.update_of_ne (ne_of_mem_of_not_mem hq hp) _ _
  refine ⟨h.ascending, h.below, h.goneAscending, ?_, ?_, h.logged⟩
  · intro q hq
    rcases List.mem_cons.mp hq with rfl | hq
    · rw [Function.update_self]
      exact (h.waits q List.mem_cons_self).header
    · rw [hheap q (List.mem_append_left _ hq)]
      exact h.waits q (List.mem_cons_of_mem _ hq)
  · intro q hq
    rw [hheap q (List.mem_append_right _ hq)]
    exact h.sent q hq

theorem Contents.send (h : Contents reads next log (p :: wait) gone owner heap)
    (hp : Headed (heap p)) :
    Contents reads next (log ++ [⟨owner p, heap p⟩]) wait (gone ++ [p]) owner heap := by
  have hline : (log ++ [(⟨owner p, heap p⟩ : Transmission)]).map
      (fun e => ticket e.owner) ++ wait.map (fun q => ticket (owner q)) =
      log.map (fun e => ticket e.owner) ++ (p :: wait).map fun q => ticket (owner q) := by
    simp
  constructor
  · rw [hline]
    exact h.ascending
  · rw [hline]
    exact h.below
  · rw [List.map_append, List.pairwise_append]
    refine ⟨h.goneAscending, List.pairwise_singleton _ _, fun t ht u hu => ?_⟩
    obtain ⟨q, hq, rfl⟩ := List.mem_map.mp ht
    obtain ⟨e, he, howner, -⟩ := h.sent q hq
    rw [List.map_cons, List.map_nil, List.mem_singleton] at hu
    rw [hu, ← howner]
    exact (List.pairwise_append.mp h.ascending).2.2 _ (List.mem_map_of_mem he) _
      (List.mem_map_of_mem List.mem_cons_self)
  · intro q hq
    exact h.waits q (List.mem_cons_of_mem _ hq)
  · intro q hq
    rcases List.mem_append.mp hq with hq | hq
    · obtain ⟨e, he, hrest⟩ := h.sent q hq
      exact ⟨e, List.mem_append_left _ he, hrest⟩
    · rw [List.mem_singleton.mp hq]
      exact ⟨_, List.mem_append_right _ (List.mem_singleton.mpr rfl), rfl, rfl⟩
  · intro e he
    rcases List.mem_append.mp he with he | he
    · exact h.logged e he
    · rw [List.mem_singleton.mp he]
      exact ⟨h.waits p List.mem_cons_self, hp⟩

theorem Contents.free (h : Contents reads next log wait gone owner heap)
    (hg : gone'.Sublist gone) : Contents reads next log wait gone' owner heap where
  ascending := h.ascending
  below := h.below
  goneAscending := h.goneAscending.sublist (hg.map _)
  waits := h.waits
  sent p hp := h.sent p (hg.subset hp)
  logged := h.logged

end contents

/-! ## The contents over a run -/

/-- The datagram that was read last. -/
def lastRead (s : Uplink) : List UInt8 := s.reads.getLastD []

/-- The inner loop of `iot_receive_routine` is `k` turns into the datagram
that was read last. -/
structure ReadTo (s : Uplink) (k : Nat) : Prop where
  rx : s.rx = turn (lastRead s) (s.reads.length % 2 ^ 8) k
  size : (lastRead s).length ≤ NET_PACKET_SIZE
  le : k ≤ frgmntsOf (lastRead s).length
  taken : ∀ p, s.iot = .taken p → k < frgmntsOf (lastRead s).length

/-- What holds of the reads and of what the buffers carry. -/
structure Carried (s : Uplink) : Prop where
  read : ∃ k, ReadTo s k
  contents : Contents s.reads (32 * s.reads.length + s.rx.frgmntIdx) s.log (waiting s) (gone s)
    s.owner s.hist.heap
  headed : ∀ p, s.fusion = .headed p → Headed (s.hist.heap p)

section carried

variable {feed : Feed} {s s' : Uplink} {a : Action}

theorem ReadTo.fill {k : Nat} (h : ReadTo s k) {p : Ptr} (hand : s.iot = .taken p) :
    iot_fill s.rx (s.hist.heap p) = (turn (lastRead s) (s.reads.length % 2 ^ 8) (k + 1),
      filled (lastRead s) (s.reads.length % 2 ^ 8) k (s.hist.heap p)) := by
  rw [h.rx]
  exact iot_fill_turn _ _ h.size (h.taken p hand)

/-- A datagram with fragments to cut is the last of the reads. -/
theorem lastRead_eq {k : Nat} (hk : k < frgmntsOf (lastRead s).length) :
    0 < s.reads.length ∧ s.reads[s.reads.length - 1]? = some (lastRead s) := by
  unfold lastRead at hk ⊢
  rw [List.getLastD_eq_getLast?] at hk ⊢
  rw [← List.getLast?_eq_getElem?]
  rcases hl : s.reads.getLast? with _ | d
  · rw [hl] at hk
    have h0 := lt_frgmntsOf.mp hk
    simp at h0
  · exact ⟨List.length_pos_of_mem (List.mem_of_getLast? hl), rfl⟩

theorem readTo_moves {k : Nat} (h : ReadTo s k) (hm : Moves s a s') : ∃ k', ReadTo s' k' := by
  have hrx := h.rx
  cases hm with
  | iotRecv d hand done size =>
    have hlast : (s.reads ++ [d]).getLastD [] = d := by simp
    have hseq : (s.reads.length % 2 ^ 8 + 1) % 2 ^ 8 = (s.reads.length + 1) % 2 ^ 8 := by omega
    refine ⟨0, ?_, ?_, Nat.zero_le _, fun p hp => ?_⟩
    · simp only [lastRead, hlast, iot_read_eq, hrx, turn, List.length_append,
        List.length_singleton, hseq]
    · simp only [lastRead, hlast]
      exact size
    · rw [hand] at hp
      cases hp
  | iotGet p ps hand fifo more =>
    refine ⟨k, hrx, h.size, h.le, fun _ _ => ?_⟩
    rw [hrx] at more
    simp only [turn, MAX_MSG_SIZE] at more
    rw [lt_frgmntsOf]
    change 60 * k < (lastRead s).length
    omega
  | iotFill p hand =>
    refine ⟨k + 1, ?_, h.size, h.taken p hand, fun q hq => ?_⟩
    · simp only [h.fill hand]
      rfl
    · cases hq
  | iotPut p hand =>
    refine ⟨k, hrx, h.size, h.le, fun q hq => ?_⟩
    cases hq
  | _ => exact ⟨k, hrx, h.size, h.le, h.taken⟩

theorem Hand.count_ptrs (h : Hand) (q : Ptr) :
    h.ptrs.count q = h.before.count q + h.after.count q := by
  cases h <;> simp [Hand.ptrs, Hand.before, Hand.after]

theorem SendHand.count_ptrs (h : SendHand) (q : Ptr) :
    h.ptrs.count q = h.before.count q + h.after.count q := by
  cases h <;> simp [SendHand.ptrs, SendHand.before, SendHand.after]

/-- The buffer that waits to be filled, the buffers that wait to be sent and
those that were sent are all different. -/
theorem Whole.lines_nodup (hw : Whole feed s) :
    (s.iot.before ++ (waiting s ++ gone s)).Nodup := by
  have hperm : (s.IotThrInFifo ++ (s.iot.before ++ (waiting s ++ gone s))).Perm (places s) := by
    rw [List.perm_iff_count]
    intro q
    have h1 := s.iot.count_ptrs q
    have h2 := s.fusion.count_ptrs q
    simp only [waiting, gone, places, List.count_append]
    omega
  exact (List.nodup_append.mp (hperm.nodup_iff.mpr hw.nodup)).2.1

theorem Whole.taken_fresh (hw : Whole feed s) {p : Ptr} (hand : s.iot = .taken p) :
    p ∉ waiting s ++ gone s := by
  have h := hw.lines_nodup
  rw [hand] at h
  exact (List.nodup_cons.mp h).1

theorem Whole.waiting_fresh (hw : Whole feed s) {p : Ptr} {ps : List Ptr}
    (hwait : waiting s = p :: ps) : p ∉ ps ++ gone s := by
  have h := (List.nodup_append.mp hw.lines_nodup).2.1
  rw [hwait] at h
  exact (List.nodup_cons.mp h).1

theorem body_write {h : Hist} {p : Ptr} {f : MsgBuf → MsgBuf} (hf : ∀ b, body (f b) = body b)
    (q : Ptr) : body ((h.write p f).heap q) = body (h.heap q) := by
  by_cases hq : q = p
  · subst hq
    rw [Hist.write_self, hf]
  · rw [Hist.write_ne _ _ hq]

theorem Whole.body_push (hw : Whole feed s) {p : Ptr} {h : Hist} (hand : s.fusion = .ready p)
    (push : hist_push_frag s.clock s.hist p = .ok h) (q : Ptr) :
    body (h.heap q) = body (s.hist.heap q) := by
  obtain ⟨o, ho⟩ := (hw.pushed hand push).2 q
  rw [ho]
  rfl

/-- The buffer in the hand of `iot_receive_routine` is not the one that waits for
its send. -/
theorem Whole.headed_ne (hw : Whole feed s) {p q : Ptr} (hand : s.iot = .taken p)
    (hq : s.fusion = .headed q) : q ≠ p := by
  have hfresh := hw.taken_fresh hand
  rintro rfl
  exact hfresh (by simp [waiting, hq, SendHand.before])

theorem headed_moves (hw : Whole feed s) (h : ∀ p, s.fusion = .headed p → Headed (s.hist.heap p))
    (hm : Moves s a s') {q : Ptr} (hq : s'.fusion = .headed q) : Headed (s'.hist.heap q) := by
  cases hm with
  | iotFill p hand =>
    rw [Hist.write_ne _ _ (hw.headed_ne hand hq)]
    exact h q hq
  | fusionGet p ps hand fifo => cases hq
  | fusionHeader p hand =>
    cases hq
    rw [Hist.write_self]
    exact headed_header _
  | fusionSend p hand => cases hq
  | fusionPush p h' hand push => cases hq
  | lingerFrag req pkt was pending =>
    have hold := h q hq
    refine hold.congr (body_write (h := s.hist) (f := fun b => { b with time := b.time + 1 })
      (fun _ => rfl) q) ?_
    by_cases hqp : q = pkt
    · subst hqp
      rw [linger, Hist.write_self]
      exact hold.code
    · rw [linger, Hist.write_ne _ _ hqp]
      exact hold.code
  | sendReply req pkt was pending =>
    have hold := h q hq
    refine hold.congr (body_write (h := s.hist) (f := asReply) (fun _ => rfl) q) ?_
    by_cases hqp : q = pkt
    · subst hqp
      rw [markReply, Hist.write_self]
      simp [asReply]
    · rw [markReply, Hist.write_ne _ _ hqp]
      exact hold.code
  | freeHistory h' fifo free =>
    rw [(hw.freed free).2.2]
    exact h q hq
  | _ => exact h q hq

theorem carried_init (heap : Ptr → MsgBuf) (now : Nat) : Carried (init feed heap now) := by
  refine ⟨⟨0, by simp [init, lastRead, turn, frgmntsOf], by simp [init, lastRead], Nat.zero_le _,
    fun p hp => by cases hp⟩, ?_, fun p hp => by cases hp⟩
  refine ⟨List.Pairwise.nil, ?_, List.Pairwise.nil, ?_, ?_, ?_⟩ <;> intro x hx <;> cases hx

theorem carried_moves (hw : Whole feed s) (h : Carried s) (hm : Moves s a s') : Carried s' := by
  obtain ⟨k, hk⟩ := h.read
  refine ⟨readTo_moves hk hm, ?_, fun q hq => headed_moves hw h.headed hm hq⟩
  have hc := h.contents
  have hhist := history_moves hw hm
  have hidx : s.rx.frgmntIdx = k := by rw [hk.rx]; rfl
  cases hm with
  | iotRecv d hand done size =>
    have h25 := frgmntsOf_le hk.size
    have hle := hk.le
    apply hc.read d
    rw [hidx, List.length_append, List.length_singleton]
    omega
  | iotGet p ps hand fifo more =>
    have hwait : waiting { s with iot := .taken p, IotThrInFifo := ps } = waiting s := by
      simp [waiting, hand, Hand.after]
    rw [hwait]
    exact hc
  | iotFill p hand =>
    have hlt := hk.taken p hand
    obtain ⟨hpos, hread⟩ := lastRead_eq hlt
    have hfilled : Filled s.reads (s.reads.length, s.rx.frgmntIdx)
        (filled (lastRead s) (s.reads.length % 2 ^ 8) k (s.hist.heap p)) :=
      ⟨lastRead s, hpos, hread, hk.size, by rw [hidx]; exact hlt, by rw [hidx]; rfl⟩
    have hfill := hc.fill (hw.taken_fresh hand) (by simp only [ticket]) hfilled
    have hwait : waiting s ++ [p] = s.fusion.before ++ s.IotThrOutFifo ++ [p] := by
      simp [waiting, hand, Hand.after]
    rw [hwait, hidx] at hfill
    unfold gone waiting
    rw [hhist]
    simp only [hk.fill hand, Hist.write, hidx]
    exact hfill
  | iotPut p hand =>
    have hwait : waiting { s with iot := .empty, IotThrOutFifo := s.IotThrOutFifo ++ [p] } =
        waiting s := by
      simp [waiting, hand, Hand.after]
    rw [hwait]
    exact hc
  | fusionGet p ps hand fifo =>
    have hwait : waiting { s with fusion := .taken p, IotThrOutFifo := ps } = waiting s := by
      simp [waiting, hand, fifo, SendHand.before]
    have hgone : gone { s with fusion := .taken p, IotThrOutFifo := ps } = gone s := by
      simp [gone, hand, SendHand.after]
    rw [hwait, hgone]
    exact hc
  | fusionHeader p hand =>
    have hwait : waiting s = p :: (s.IotThrOutFifo ++ s.iot.after) := by
      simp [waiting, hand, SendHand.before]
    have hgone : gone s = history s.hist := by simp [gone, hand, SendHand.after]
    have hfresh := hw.waiting_fresh hwait
    rw [hwait] at hc
    have hheader := hc.header hfresh
    rw [hgone] at hheader
    unfold gone waiting
    rw [hhist]
    simpa [SendHand.before, SendHand.after, historyAfter, Hist.write] using hheader
  | fusionSend p hand =>
    have hwait : waiting s = p :: (s.IotThrOutFifo ++ s.iot.after) := by
      simp [waiting, hand, SendHand.before]
    have hgone : gone s = history s.hist := by simp [gone, hand, SendHand.after]
    rw [hwait] at hc
    have hsend := hc.send (h.headed p hand)
    rw [hgone] at hsend
    unfold gone waiting
    rw [hhist]
    exact hsend
  | fusionPush p h hand push =>
    have hwait : waiting s = s.IotThrOutFifo ++ s.iot.after := by
      simp [waiting, hand, SendHand.before]
    have hgone : gone s = history s.hist ++ [p] := by simp [gone, hand, SendHand.after]
    have hcong := hc.congr fun q _ => hw.body_push hand push q
    rw [hwait, hgone] at hcong
    unfold gone waiting
    rw [hhist]
    simpa [historyAfter, hand, SendHand.ptrs, SendHand.before, SendHand.after] using hcong
  | lingerFrag req pkt was pending =>
    have hcong := hc.congr fun q _ => body_write (h := s.hist) (p := pkt)
      (f := fun b => { b with time := b.time + 1 }) (fun _ => rfl) q
    unfold gone
    rw [hhist]
    exact hcong
  | sendReply req pkt was pending =>
    have hcong := hc.congr fun q _ => body_write (h := s.hist) (p := pkt) (f := asReply)
      (fun _ => rfl) q
    unfold gone
    rw [hhist]
    exact hcong
  | freeHistory h fifo free =>
    have hsub : (historyAfter s .freeHistory ++ s.fusion.after).Sublist (gone s) :=
      (List.dropWhile_sublist _).append_right _
    have hfree := hc.free hsub
    rw [← (hw.freed free).2.2] at hfree
    unfold gone
    rw [hhist]
    exact hfree
  | _ => exact hc

theorem reachable_carried {heap : Ptr → MsgBuf} {now : Nat}
    (hr : Reachable step (init feed heap now) s) : Whole feed s ∧ Carried s := by
  refine hr.invariant (I := fun s => Whole feed s ∧ Carried s) ?_
    ⟨whole_init feed heap now, carried_init heap now⟩
  intro s a s' ⟨hw, hc⟩ hstep
  have hm := moves_of_step hstep
  exact ⟨whole_moves hw hm, carried_moves hw hc hm⟩

end carried

/-! ## Which fragment answers a request -/

/-- The datagram that was transmitted last under a header number. -/
def latest (log : List Transmission) (seqNum : Nat) : Option Nat :=
  ((log.filter fun e => e.msg.msgHeader.seqNum.val = seqNum).getLast?).map (·.owner.1)

/-- The first transmission of a fragment. -/
def firstSent (log : List Transmission) (o : Nat × Nat) : Option Transmission :=
  log.find? fun e => e.owner = o

/-- `handle_lost_request` sends the buffer `p`, and it is the first
transmission of its fragment with only the code changed. -/
def AnsweredWith (s : Uplink) (req : RUdpFragmntReq) (p : Ptr) : Prop :=
  ∃ h' e, handle_lost_request s.hist req = some (h', some p) ∧
    firstSent s.log (s.owner p) = some e ∧
    (h'.heap p).msgHeader = { e.msg.msgHeader with msgCode := MSG_CODE_REPLY_FRAG } ∧
    (h'.heap p).msgLen = e.msg.msgLen ∧ (h'.heap p).data = e.msg.data

/-- Messages with the same body differ in the code of the header at most. -/
theorem asReply_eq_of_body {b b' : MsgBuf} (h : body b = body b') :
    (asReply b').msgHeader = { b.msgHeader with msgCode := MSG_CODE_REPLY_FRAG } ∧
      b'.msgLen = b.msgLen ∧ b'.data = b.data := by
  obtain ⟨hidx, hfr, hseq, hsize, hlen, hdata⟩ := fields_of_body h
  refine ⟨?_, hlen.symm, hdata.symm⟩
  simp only [asReply, hidx, hfr, hseq, hsize]

theorem Filled.lt {reads : List (List UInt8)} {o : Nat × Nat} {b : MsgBuf}
    (h : Filled reads o b) : o.2 < 32 := by
  obtain ⟨d, -, -, hd, hi, -⟩ := h
  have := frgmntsOf_le hd
  omega

section replies

variable {reads : List (List UInt8)} {next : Nat} {log : List Transmission} {wait gone : List Ptr}
  {owner : Ptr → Nat × Nat} {heap : Ptr → MsgBuf}

theorem Contents.logAscending (h : Contents reads next log wait gone owner heap) :
    log.Pairwise fun e e' => ticket e.owner < ticket e'.owner := by
  have := (List.pairwise_append.mp h.ascending).1
  rwa [List.pairwise_map] at this

/-- Every fragment was sent at most once, so the only transmission of it is
the first one. -/
theorem Contents.firstSent_eq (h : Contents reads next log wait gone owner heap)
    {e : Transmission} (he : e ∈ log) : firstSent log e.owner = some e := by
  obtain ⟨pre, post, rfl⟩ := List.append_of_mem he
  unfold firstSent
  rw [List.find?_eq_some_iff_append]
  refine ⟨by simp, pre, post, rfl, fun e' he' => ?_⟩
  have hlt := (List.pairwise_append.mp h.logAscending).2.2 e' he' e List.mem_cons_self
  simp only [Bool.not_eq_true', decide_eq_false_iff_not]
  intro heq
  rw [heq] at hlt
  exact Nat.lt_irrefl _ hlt

theorem Contents.seqNum_logged (h : Contents reads next log wait gone owner heap)
    {e : Transmission} (he : e ∈ log) : e.msg.msgHeader.seqNum.val = e.owner.1 % 16 := by
  obtain ⟨⟨d, -, -, -, -, hf⟩, hhdr⟩ := h.logged e he
  have hnum : e.owner.1 % 2 ^ 8 = e.msg.seqNum := congrArg MsgBuf.seqNum hf
  have hmask : e.msg.seqNum &&& 15 = e.msg.seqNum % 16 :=
    Nat.and_two_pow_sub_one_eq_mod e.msg.seqNum 4
  obtain ⟨-, -, hseq, -⟩ := fields_of_body hhdr.fields
  rw [← hseq]
  simp only [fusion_header, SEQ_MASK, Fin.val_ofNat, hmask]
  omega

/-- A buffer that was sent has the index and the number of its fragment in its
header. -/
theorem Contents.header_sent (h : Contents reads next log wait gone owner heap) {p : Ptr}
    (hp : p ∈ gone) : (heap p).msgHeader.frgmntIdx.val = (owner p).2 ∧
      (heap p).msgHeader.seqNum.val = (owner p).1 % 16 := by
  obtain ⟨e, he, howner, hbody⟩ := h.sent p hp
  obtain ⟨hidx, -, hseq, -⟩ := fields_of_body hbody
  rw [← hidx, ← hseq, ← howner]
  refine ⟨?_, h.seqNum_logged he⟩
  have hfilled := (h.logged e he).1
  have hlt := hfilled.lt
  obtain ⟨d, -, -, -, -, hf⟩ := hfilled
  have hown : Fin.ofNat 32 e.owner.2 = e.msg.msgHeader.frgmntIdx :=
    congrArg (fun b : MsgBuf => b.msgHeader.frgmntIdx) hf
  rw [← hown]
  exact Nat.mod_eq_of_lt hlt

theorem Contents.latest_mod (h : Contents reads next log wait gone owner heap) {seqNum j : Nat}
    (hj : latest log seqNum = some j) : j % 16 = seqNum := by
  obtain ⟨last, hlast, rfl⟩ := Option.map_eq_some_iff.mp hj
  obtain ⟨hmem, hs⟩ := List.mem_filter.mp (List.mem_of_getLast? hlast)
  rw [← h.seqNum_logged hmem]
  exact of_decide_eq_true hs

end replies

section answers

variable {s : Uplink}

/-- The history holds the fragments in the order in which they were cut. -/
theorem Carried.history_ascending (hc : Carried s) :
    (history s.hist).Pairwise fun p q => ticket (s.owner p) < ticket (s.owner q) := by
  have hsub : (history s.hist).Sublist (gone s) := List.sublist_append_left _ _
  have := hc.contents.goneAscending.sublist (hsub.map fun p => ticket (s.owner p))
  rwa [List.pairwise_map] at this

theorem Carried.header (hc : Carried s) {p : Ptr} (hp : p ∈ history s.hist) :
    (s.hist.heap p).msgHeader.frgmntIdx.val = (s.owner p).2 ∧
      (s.hist.heap p).msgHeader.seqNum.val = (s.owner p).1 % 16 :=
  hc.contents.header_sent (List.mem_append_left _ hp)

theorem Carried.isFrag_iff (hc : Carried s) {p : Ptr} (hp : p ∈ history s.hist)
    (fragLost seqNum : Nat) : isFrag s.hist fragLost seqNum p = true ↔
      (s.owner p).2 = fragLost ∧ (s.hist.heap p).msgHeader.seqNum.val = seqNum := by
  unfold isFrag
  rw [decide_eq_true_eq, (hc.header hp).1]

theorem answeredWith_iff {feed : Feed} (hw : Whole feed s) (hc : Carried s) (req : RUdpFragmntReq)
    {p : Ptr} (hp : p ∈ history s.hist) : AnsweredWith s req p ↔
      (history s.hist).find? (isFrag s.hist req.fragmntLost req.seqNum) = some p := by
  have hfind := hist_find_frag_eq hw.linked req.fragmntLost req.seqNum
  constructor
  · rintro ⟨h', e, hans, -⟩
    have hfound := (handle_lost_request_eq_some.mp hans).1
    rw [hfind] at hfound
    exact Option.some.inj hfound
  · intro ho
    rw [ho] at hfind
    obtain ⟨e, he, howner, hbody⟩ := hc.contents.sent p (List.mem_append_left _ hp)
    have hfirst := hc.contents.firstSent_eq he
    rw [howner] at hfirst
    refine ⟨_, e, handle_lost_request_eq_some.mpr ⟨hfind, rfl⟩, hfirst, ?_⟩
    rw [markReply_linger]
    exact asReply_eq_of_body hbody

end answers

/-- A request for fragment `i` under the number `s` is answered with fragment
`i` of the datagram that was transmitted last under `s`, while it is in the
history, exactly when fragment `i` of no older datagram under `s` is in the
history with it. -/
theorem a_request_is_answered_right_iff_no_older_twin (feed : Feed) (heap : Ptr → MsgBuf)
    (now : Nat) (s : Uplink) (hr : Reachable step (init feed heap now) s) (req : RUdpFragmntReq)
    (j : Nat) (hj : latest s.log req.seqNum = some j) (p : Ptr) (hp : p ∈ history s.hist)
    (hown : s.owner p = (j, req.fragmntLost)) :
    AnsweredWith s req p ↔
      ∀ q ∈ history s.hist, (s.owner q).1 < j → (s.owner q).2 = req.fragmntLost →
        (s.hist.heap q).msgHeader.seqNum.val ≠ req.seqNum := by
  obtain ⟨hw, hc⟩ := reachable_carried hr
  have hseq : (s.hist.heap p).msgHeader.seqNum.val = req.seqNum := by
    rw [(hc.header hp).2, hown]
    exact hc.contents.latest_mod hj
  have hsorted := hc.history_ascending
  rw [answeredWith_iff hw hc req hp, List.find?_eq_some_iff_append]
  constructor
  · rintro ⟨-, pre, post, hsplit, hno⟩ q hq hlt hidx hqs
    have hpre : q ∈ pre := by
      rw [hsplit] at hq hsorted
      rcases List.mem_append.mp hq with hin | hin
      · exact hin
      · rcases List.mem_cons.mp hin with rfl | hin
        · rw [hown] at hlt
          exact absurd hlt (Nat.lt_irrefl _)
        · have hafter := (List.pairwise_cons.mp (List.pairwise_append.mp hsorted).2.1).1 q hin
          rw [hown] at hafter
          unfold ticket at hafter
          simp only at hafter
          omega
    have := hno q hpre
    rw [(hc.isFrag_iff hq _ _).mpr ⟨hidx, hqs⟩] at this
    cases this
  · intro hno
    refine ⟨(hc.isFrag_iff hp _ _).mpr ⟨by rw [hown], hseq⟩, ?_⟩
    obtain ⟨pre, post, hsplit⟩ := List.append_of_mem hp
    refine ⟨pre, post, hsplit, fun q hq => ?_⟩
    have hqmem : q ∈ history s.hist := by
      rw [hsplit]
      exact List.mem_append_left _ hq
    rw [Bool.not_eq_true', ← Bool.not_eq_true, hc.isFrag_iff hqmem]
    rintro ⟨hidx, hqs⟩
    rw [hsplit] at hsorted
    have hahead := (List.pairwise_append.mp hsorted).2.2 q hq p List.mem_cons_self
    rw [hown] at hahead
    unfold ticket at hahead
    simp only at hahead
    exact hno q hqmem (by omega) hidx hqs

theorem a_request_is_answered :
    ∃ s, run step (init numbered (fun _ => .zero) 5) (oneFrgmnt [7]) = some s ∧
      AnsweredWith s ⟨MSG_CODE_REQUEST_FRAG, 0, 1⟩ 0 := by
  have hrun : (run step (init numbered (fun _ => .zero) 5) (oneFrgmnt [7])).map
      (fun s => (latest s.log 1, history s.hist, s.owner 0)) = some (some 1, [0], (1, 0)) := by
    decide +kernel
  obtain ⟨s, hs, hstate⟩ := Option.map_eq_some_iff.mp hrun
  obtain ⟨hlatest, hrest⟩ := Prod.mk.inj hstate
  obtain ⟨hh, hown⟩ := Prod.mk.inj hrest
  refine ⟨s, hs, (a_request_is_answered_right_iff_no_older_twin numbered (fun _ => .zero) 5 s
    ⟨oneFrgmnt [7], hs⟩ ⟨MSG_CODE_REQUEST_FRAG, 0, 1⟩ 1 hlatest 0 (by simp [hh]) hown).mpr ?_⟩
  intro q hq hlt
  rw [hh, List.mem_singleton] at hq
  subst hq
  rw [hown] at hlt
  exact absurd hlt (Nat.lt_irrefl _)

/-- Seventeen datagrams of one byte: a request for the fragment of the last
one, number 1 again, is answered with the first one. -/
theorem an_old_datagram_answers :
    ∃ s, run step (init numbered (fun _ => .zero) 0)
        ((List.range 17).flatMap fun k => oneFrgmnt [UInt8.ofNat k]) = some s ∧
      latest s.log 1 = some 17 ∧ 16 ∈ history s.hist ∧ s.owner 16 = (17, 0) ∧
      (handle_lost_request s.hist ⟨MSG_CODE_REQUEST_FRAG, 0, 1⟩).map (·.2) = some (some 0) ∧
      s.owner 0 = (1, 0) ∧
      (s.hist.heap 0).data ⟨0, by decide⟩ ≠ (s.hist.heap 16).data ⟨0, by decide⟩ ∧
      ¬ AnsweredWith s ⟨MSG_CODE_REQUEST_FRAG, 0, 1⟩ 16 := by
  have hrun : (run step (init numbered (fun _ => .zero) 0)
      ((List.range 17).flatMap fun k => oneFrgmnt [UInt8.ofNat k])).map (fun s =>
        (latest s.log 1, history s.hist, s.owner 0, s.owner 16)) =
      some (some 17, List.range 17, (1, 0), (17, 0)) := by decide +kernel
  have hans : (run step (init numbered (fun _ => .zero) 0)
      ((List.range 17).flatMap fun k => oneFrgmnt [UInt8.ofNat k])).map (fun s =>
        ((handle_lost_request s.hist ⟨MSG_CODE_REQUEST_FRAG, 0, 1⟩).map (·.2),
          (s.hist.heap 0).data ⟨0, by decide⟩, (s.hist.heap 16).data ⟨0, by decide⟩)) =
      some (some (some 0), 0, 16) := by decide +kernel
  obtain ⟨s, hs, hstate⟩ := Option.map_eq_some_iff.mp hrun
  rw [hs] at hans
  simp only [Option.map_some, Option.some.injEq, Prod.mk.injEq] at hstate hans
  obtain ⟨hlatest, hh, h0, h16⟩ := hstate
  obtain ⟨hans, hd0, hd16⟩ := hans
  refine ⟨s, hs, hlatest, by simp [hh], h16, hans, h0,
    by rw [hd0, hd16]; decide, ?_⟩
  rintro ⟨h', e, hans', -⟩
  rw [hans'] at hans
  cases hans

/-! ## The window between the search and the send -/

/-- The buffer that a reply is pending for. -/
def Answer.pending : Answer → Option Ptr
  | .idle => none
  | .found _ pkt _ => some pkt
  | .lingered _ pkt _ => some pkt

/-- The pass of `free_history` takes no buffer that a reply is pending for. -/
def KeepsPending (s : Uplink) : Action → Prop
  | .freeHistory => ∀ p ∈ s.answer.pending,
      p ∉ (history s.hist).takeWhile fun p => (s.hist.heap p).time ≤ s.clock
  | _ => True

instance decidableKeepsPending (s : Uplink) : ∀ a, Decidable (KeepsPending s a)
  | .freeHistory => inferInstanceAs (Decidable (∀ p ∈ s.answer.pending,
      p ∉ (history s.hist).takeWhile fun p => (s.hist.heap p).time ≤ s.clock))
  | .tick | .iotRecv _ | .iotGet | .iotFill | .iotPut | .fusionGet | .fusionHeader | .fusionSend
  | .fusionPush | .findFrag _ | .lingerFrag | .sendReply => isTrue trivial

/-- The buffer of a pending reply is in the history and carries what it did
when it was found: the fragment that was asked for. -/
structure Owned (s : Uplink) (req : RUdpFragmntReq) (pkt : Ptr) (was : MsgBuf) : Prop where
  mem : pkt ∈ history s.hist
  frgmntIdx : was.msgHeader.frgmntIdx.val = req.fragmntLost
  seqNum : was.msgHeader.seqNum.val = req.seqNum
  body : body (s.hist.heap pkt) = body was

/-- What holds while a reply is pending. -/
def PendingOwned (s : Uplink) : Prop :=
  match s.answer with
  | .idle => True
  | .found req pkt was => Owned s req pkt was
  | .lingered req pkt was => Owned s req pkt was

section pending

variable {feed : Feed} {s s' : Uplink} {a : Action}

theorem PendingOwned.owned (h : PendingOwned s) {req : RUdpFragmntReq} {pkt : Ptr} {was : MsgBuf}
    (hans : s.answer = .found req pkt was ∨ s.answer = .lingered req pkt was) :
    Owned s req pkt was := by
  unfold PendingOwned at h
  rcases hans with hans | hans
  · rw [hans] at h
    exact h
  · rw [hans] at h
    exact h

theorem PendingOwned.mem (h : PendingOwned s) {pkt : Ptr} (hp : pkt ∈ s.answer.pending) :
    pkt ∈ history s.hist := by
  unfold PendingOwned at h
  rcases ho : s.answer with _ | ⟨req, p, was⟩ | ⟨req, p, was⟩
  · rw [ho] at hp
    cases hp
  · rw [ho] at h hp
    cases hp
    exact h.mem
  · rw [ho] at h hp
    cases hp
    exact h.mem

theorem Whole.hand_fresh (hw : Whole feed s) {p q : Ptr}
    (hp : p ∈ s.iot.ptrs ∨ p ∈ s.fusion.ptrs) (hq : q ∈ history s.hist) : q ≠ p := by
  have hd := (List.nodup_append.mp hw.nodup).2.2
  rintro rfl
  refine hd q ?_ q hq rfl
  simp only [List.mem_append]
  rcases hp with hp | hp
  · exact Or.inl (Or.inl (Or.inr hp))
  · exact Or.inr hp

/-- An action that keeps the buffer in the history, and what it carries, keeps
the reply owned. -/
theorem PendingOwned.keep (h : PendingOwned s) (hans : s'.answer = s.answer)
    (hk : ∀ pkt ∈ s.answer.pending, pkt ∈ history s.hist →
      pkt ∈ history s'.hist ∧ body (s'.hist.heap pkt) = body (s.hist.heap pkt)) :
    PendingOwned s' := by
  unfold PendingOwned at h ⊢
  rw [hans]
  rcases ho : s.answer with _ | ⟨req, pkt, was⟩ | ⟨req, pkt, was⟩
  · trivial
  · rw [ho] at h hk
    obtain ⟨hm, hb⟩ := hk pkt rfl h.mem
    exact ⟨hm, h.frgmntIdx, h.seqNum, hb.trans h.body⟩
  · rw [ho] at h hk
    obtain ⟨hm, hb⟩ := hk pkt rfl h.mem
    exact ⟨hm, h.frgmntIdx, h.seqNum, hb.trans h.body⟩

theorem pendingOwned_moves (hw : Whole feed s) (h : PendingOwned s) (hk : KeepsPending s a)
    (hm : Moves s a s') : PendingOwned s' := by
  have hhist := history_moves hw hm
  cases hm with
  | iotFill p hand =>
    refine h.keep rfl fun pkt _ hmem => ⟨by rw [hhist]; exact hmem, ?_⟩
    have hne := hw.hand_fresh (p := p) (Or.inl (by simp [hand, Hand.ptrs])) hmem
    simp only [Hist.write_ne _ _ hne]
  | fusionHeader p hand =>
    refine h.keep rfl fun pkt _ hmem => ⟨by rw [hhist]; exact hmem, ?_⟩
    have hne := hw.hand_fresh (p := p) (Or.inr (by simp [hand, SendHand.ptrs])) hmem
    simp only [Hist.write_ne _ _ hne]
  | fusionPush p h' hand push =>
    refine h.keep rfl fun pkt _ hmem => ⟨?_, hw.body_push hand push pkt⟩
    rw [hhist]
    exact List.mem_append_left _ hmem
  | found req pkt idle find =>
    have hfind := hist_find_frag_eq hw.linked req.fragmntLost req.seqNum
    rw [find] at hfind
    have hsome := (Option.some.inj hfind).symm
    have hfits := List.find?_some hsome
    unfold isFrag at hfits
    rw [decide_eq_true_eq] at hfits
    exact ⟨List.mem_of_find?_eq_some hsome, hfits.1, hfits.2, rfl⟩
  | lingerFrag req pkt was pending =>
    have howned := h.owned (Or.inl pending)
    refine ⟨by rw [hhist]; exact howned.mem, howned.frgmntIdx, howned.seqNum, ?_⟩
    rw [← howned.body]
    exact body_write (h := s.hist) (f := fun b => { b with time := b.time + 1 }) (fun _ => rfl) pkt
  | sendReply req pkt was pending => trivial
  | freeHistory h' fifo free =>
    refine h.keep rfl fun pkt hpend hmem => ⟨?_, by rw [(hw.freed free).2.2]⟩
    rw [hhist]
    exact (taken_or_kept hmem).resolve_left (hk pkt hpend)
  | _ => exact h.keep rfl fun pkt _ hmem => ⟨hmem, rfl⟩

/-- What holds while no pass takes a buffer that a reply is pending for. -/
theorem owned_of_guarded {heap : Ptr → MsgBuf} {now : Nat} {as : List Action}
    (hr : run step (init feed heap now) as = some s)
    (hg : Guarded step KeepsPending (init feed heap now) as) :
    (Whole feed s ∧ Carried s) ∧ PendingOwned s := by
  refine run_invariant_guarded (I := fun s => (Whole feed s ∧ Carried s) ∧ PendingOwned s) ?_
    ⟨⟨whole_init feed heap now, carried_init heap now⟩, trivial⟩ hg hr
  intro s a s' ⟨⟨hw, hc⟩, hp⟩ hk hstep
  have hm := moves_of_step hstep
  exact ⟨⟨whole_moves hw hm, carried_moves hw hc hm⟩, pendingOwned_moves hw hp hk hm⟩

end pending

/-- A reply is sent from a buffer of the history, in every run in which no
pass of `free_history` takes the buffer between the search and the send. The
message is the fragment that was asked for, as it was found and as it was
transmitted, with the code of a reply. -/
theorem a_reply_is_sent_from_the_history (feed : Feed) (heap : Ptr → MsgBuf) (now : Nat)
    (as : List Action) (s : Uplink) (hr : run step (init feed heap now) as = some s)
    (hg : Guarded step KeepsPending (init feed heap now) as) (req : RUdpFragmntReq) (pkt : Ptr)
    (was : MsgBuf) (hpend : s.answer = .lingered req pkt was) :
    pkt ∈ history s.hist ∧
      ((markReply s.hist pkt).heap pkt).msgHeader.frgmntIdx.val = req.fragmntLost ∧
      ((markReply s.hist pkt).heap pkt).msgHeader.seqNum.val = req.seqNum ∧
      body ((markReply s.hist pkt).heap pkt) = body was ∧
      ∃ e ∈ s.log, e.owner = s.owner pkt ∧ body ((markReply s.hist pkt).heap pkt) = body e.msg := by
  obtain ⟨⟨hw, -, hc, -⟩, hp⟩ := owned_of_guarded hr hg
  have howned := hp.owned (Or.inr hpend)
  have hbody : body ((markReply s.hist pkt).heap pkt) = body was := by
    rw [← howned.body]
    exact body_write (h := s.hist) (f := asReply) (fun _ => rfl) pkt
  obtain ⟨hidx, -, hseq, -⟩ := fields_of_body hbody
  obtain ⟨e, he, howner, hsent⟩ := hc.sent pkt (List.mem_append_left _ howned.mem)
  exact ⟨howned.mem, by rw [hidx, howned.frgmntIdx], by rw [hseq, howned.seqNum], hbody, e, he,
    howner, hbody.trans (howned.body.symm.trans hsent.symm)⟩

/-- A reply with a pass of `free_history` in its window that takes nothing. -/
theorem a_reply_in_time :
    ∃ s, run step (init numbered (fun _ => .zero) 0) (oneFrgmnt [7] ++
        [.tick, .findFrag ⟨MSG_CODE_REQUEST_FRAG, 0, 1⟩, .freeHistory, .lingerFrag]) = some s ∧
      s.answer.pending = some 0 ∧ 0 ∈ history s.hist := by
  have hrun : (run step (init numbered (fun _ => .zero) 0) (oneFrgmnt [7] ++
      [.tick, .findFrag ⟨MSG_CODE_REQUEST_FRAG, 0, 1⟩, .freeHistory, .lingerFrag])).map (fun s =>
        (s.answer.pending, (step s .sendReply).isSome)) = some (some 0, true) := by
    decide +kernel
  obtain ⟨s, hs, hstate⟩ := Option.map_eq_some_iff.mp hrun
  obtain ⟨hpkt, hsend⟩ := Prod.mk.inj hstate
  obtain ⟨s', hs'⟩ := Option.isSome_iff_exists.mp hsend
  refine ⟨s, hs, hpkt, ?_⟩
  cases moves_of_step hs' with
  | sendReply req pkt was pending =>
    have hkept := (a_reply_is_sent_from_the_history numbered (fun _ => .zero) 0 _ s hs
      (by decide +kernel) req pkt was pending).1
    rw [pending] at hpkt
    cases hpkt
    exact hkept

/-- The buffer was pushed at the time 0 and is found at 41. The pass that comes
before the send takes it, although its deadline was put off by a second. -/
theorem a_reply_from_a_free_buffer :
    ∃ s, run step (init numbered (fun _ => .zero) 0)
        (oneFrgmnt [7] ++ List.replicate 41 .tick ++
          [.findFrag ⟨MSG_CODE_REQUEST_FRAG, 0, 1⟩, .lingerFrag, .freeHistory]) = some s ∧
      s.answer.pending = some 0 ∧ (∃ s', step s .sendReply = some s') ∧
      0 ∉ history s.hist ∧ 0 ∈ s.IotThrInFifo := by
  have hrun : (run step (init numbered (fun _ => .zero) 0)
      (oneFrgmnt [7] ++ List.replicate 41 .tick ++
        [.findFrag ⟨MSG_CODE_REQUEST_FRAG, 0, 1⟩, .lingerFrag, .freeHistory])).map (fun s =>
        (s.answer.pending, (step s .sendReply).isSome, history s.hist,
          decide (0 ∈ s.IotThrInFifo))) =
      some (some 0, true, [], true) := by decide +kernel
  obtain ⟨s, hs, hstate⟩ := Option.map_eq_some_iff.mp hrun
  simp only [Prod.mk.injEq, decide_eq_true_eq] at hstate
  obtain ⟨hpend, hsend, hh, hfree⟩ := hstate
  exact ⟨s, hs, hpend, Option.isSome_iff_exists.mp hsend, by simp [hh], hfree⟩

end uplink

end udp_service
