-- The history of the sender (r_udp.c): an intrusive list of the buffers that
-- went out, with a deadline in each. The list lives in the `next` fields of
-- the buffers, and what it does to them is what a queue would do.
import UdpService.Lib.Chain
import UdpService.RudpReq

open chain

namespace udp_service

/-- The buffers, and the globals `ListHead` and `ListTail`. -/
structure Hist where
  heap : Ptr → MsgBuf
  ListHead : Option Ptr
  ListTail : Option Ptr

/-- A store into the buffer at `p`. -/
def Hist.write (h : Hist) (p : Ptr) (f : MsgBuf → MsgBuf) : Hist :=
  { h with heap := Function.update h.heap p (f (h.heap p)) }

@[simp] theorem Hist.write_self (h : Hist) (p : Ptr) (f : MsgBuf → MsgBuf) :
    (h.write p f).heap p = f (h.heap p) := by
  simp [Hist.write]

@[simp] theorem Hist.write_ne (h : Hist) {p q : Ptr} (f : MsgBuf → MsgBuf) (hq : q ≠ p) :
    (h.write p f).heap q = h.heap q := by
  simp [Hist.write, hq]

/-- `MAX_BUFFER_ELEMS`: the pool has one buffer less in circulation. -/
@[simp] def MAX_BUFFER_ELEMS : Nat := 64

namespace r_udp

/-- The `next` field of the buffer at `p`. -/
def nextOf (h : Hist) (p : Ptr) : Option Ptr := (h.heap p).next

/-- The buffer carries a fragment with this index and sequence number. -/
def isFrag (h : Hist) (fragLost seqNum : Nat) (p : Ptr) : Bool :=
  (h.heap p).msgHeader.frgmntIdx.val = fragLost ∧ (h.heap p).msgHeader.seqNum.val = seqNum

/-- The locked search of `hist_find_frag`, or `none` when the list has more
buffers than the pool. -/
def hist_find_frag (h : Hist) (fragLost seqNum : Nat) : Option (Option Ptr) :=
  search (nextOf h) (isFrag h fragLost seqNum) MAX_BUFFER_ELEMS h.ListHead

/-- What `hist_find_frag` does to the buffer it found, after the unlock. -/
def linger (h : Hist) (n : Ptr) : Hist := h.write n fun b => { b with time := b.time + 1 }

/-- A buffer with the code of a reply. -/
def asReply (b : MsgBuf) : MsgBuf :=
  { b with msgHeader := { b.msgHeader with msgCode := MSG_CODE_REPLY_FRAG } }

/-- What `handle_lost_request` stores into the buffer before it sends it. -/
def markReply (h : Hist) (pkt : Ptr) : Hist := h.write pkt asReply

/-- `handle_lost_request`: the buffer that is sent, and the history after. -/
def handle_lost_request (h : Hist) (req : RUdpFragmntReq) : Option (Hist × Option Ptr) :=
  (hist_find_frag h req.fragmntLost req.seqNum).map fun
    | some pkt => (markReply (linger h pkt) pkt, some pkt)
    | none => (h, none)

/-- `hist_push_frag` at the time `now`. -/
def hist_push_frag (now : Nat) (h : Hist) (dataPayLoad : Ptr) : Except Fault Hist :=
  let h := h.write dataPayLoad fun b => { b with time := now + R_UDP_TIMEOUT }
  let last (h : Hist) : Hist := { h with ListTail := some dataPayLoad }.write dataPayLoad
    fun b => { b with next := none }
  match h.ListHead, h.ListTail with
  | none, _ => .ok (last { h with ListHead := some dataPayLoad })
  | some _, some tail => .ok (last (h.write tail fun b => { b with next := some dataPayLoad }))
  | some _, none => .error .nullStore

/-- `hist_peek_timed_head` at the time `now`. -/
def hist_peek_timed_head (now : Nat) (h : Hist) : Option Ptr :=
  h.ListHead.filter fun p => (h.heap p).time ≤ now

/-- `hist_pop_frag`, when `head` is `ListHead`: the history and
`IotThrInFifo` after it. -/
def hist_pop_frag (h : Hist) (head : Ptr) (fifo : List Ptr) : Hist × List Ptr :=
  ({ h with
      ListHead := nextOf h head
      ListTail := if nextOf h head = none then none else h.ListTail }, fifo ++ [head])

/-- The loop of `free_history`, or `none` when the fuel ends. It reads the clock
anew for every head; as the clock does not run backwards, what the loop takes is
what it takes when every reading is the last one, `now`. -/
def free_history (now : Nat) : Nat → Hist → List Ptr → Option (Hist × List Ptr)
  | fuel, h, fifo =>
    match hist_peek_timed_head now h with
    | none => some (h, fifo)
    | some head =>
      match fuel with
      | 0 => none
      | fuel + 1 =>
        free_history now fuel (hist_pop_frag h head fifo).1 (hist_pop_frag h head fifo).2

/-! ## The list as a queue -/

/-- The buffers in the history, from `ListHead` on. -/
def history (h : Hist) : List Ptr := walk (nextOf h) MAX_BUFFER_ELEMS h.ListHead

/-- The globals and the `next` fields make up the list `l`. -/
structure Queued (h : Hist) (l : List Ptr) : Prop where
  chain : Chain (nextOf h) h.ListHead l
  tail : h.ListTail = l.getLast?
  nodup : l.Nodup

/-- The list `l` besides leaves a buffer of the pool free. -/
structure Linked (h : Hist) (l : List Ptr) : Prop extends Queued h l where
  short : l.length < MAX_BUFFER_ELEMS

theorem Linked.history_eq {h : Hist} {l : List Ptr} (hl : Linked h l) : history h = l :=
  hl.chain.walk_eq (Nat.le_of_lt hl.short)

/-- A store that leaves the `next` fields of the list alone leaves the list. -/
theorem Queued.congr {h h' : Hist} {l : List Ptr} (hl : Queued h l)
    (hhead : h'.ListHead = h.ListHead) (htail : h'.ListTail = h.ListTail)
    (hnext : ∀ p ∈ l, (h'.heap p).next = (h.heap p).next) : Queued h' l := by
  refine ⟨?_, htail.trans hl.tail, hl.nodup⟩
  rw [hhead]
  exact hl.chain.congr hnext

theorem Queued.write {h : Hist} {l : List Ptr} (hl : Queued h l) (p : Ptr) {f : MsgBuf → MsgBuf}
    (hf : ∀ b, (f b).next = b.next) : Queued (h.write p f) l := by
  refine hl.congr rfl rfl fun q _ => ?_
  by_cases hq : q = p
  · subst hq
    rw [Hist.write_self, hf]
  · rw [Hist.write_ne _ _ hq]

theorem Linked.write {h : Hist} {l : List Ptr} (hl : Linked h l) (p : Ptr) {f : MsgBuf → MsgBuf}
    (hf : ∀ b, (f b).next = b.next) : Linked (h.write p f) l :=
  ⟨hl.toQueued.write p hf, hl.short⟩

/-- The search gives the first buffer of the list that fits. -/
theorem hist_find_frag_eq {h : Hist} {l : List Ptr} (hl : Linked h l) (fragLost seqNum : Nat) :
    hist_find_frag h fragLost seqNum = some (l.find? (isFrag h fragLost seqNum)) :=
  hl.chain.search_eq _ (Nat.le_of_lt hl.short)

/-- A request is answered with the buffer that the search finds. -/
theorem handle_lost_request_eq_some {h h' : Hist} {req : RUdpFragmntReq} {pkt : Ptr} :
    handle_lost_request h req = some (h', some pkt) ↔
      hist_find_frag h req.fragmntLost req.seqNum = some (some pkt) ∧
        h' = markReply (linger h pkt) pkt := by
  unfold handle_lost_request
  rw [Option.map_eq_some_iff]
  constructor
  · rintro ⟨o, hfind, ho⟩
    cases o with
    | none => simp at ho
    | some q =>
      simp only [Prod.mk.injEq, Option.some.injEq] at ho
      obtain ⟨rfl, rfl⟩ := ho
      exact ⟨hfind, rfl⟩
  · rintro ⟨hfind, rfl⟩
    exact ⟨some pkt, hfind, rfl⟩

/-- The buffer that is sent for a request: of what it held, the code and the
deadline are new. -/
@[simp] theorem markReply_linger (h : Hist) (pkt : Ptr) :
    (markReply (linger h pkt) pkt).heap pkt =
      asReply { h.heap pkt with time := (h.heap pkt).time + 1 } := by
  simp [markReply, linger]

/-- A push appends to the list. It sets the deadline of the buffer, and of the
other buffers it changes at most the `next` field. -/
theorem hist_push_frag_queued {h : Hist} {l : List Ptr} {p : Ptr} (now : Nat) (hl : Queued h l)
    (hp : p ∉ l) :
    ∃ h', hist_push_frag now h p = .ok h' ∧ Queued h' (l ++ [p]) ∧
      ∀ q, ∃ o, h'.heap q = { h.heap q with
        next := o, time := if q = p then now + R_UDP_TIMEOUT else (h.heap q).time } := by
  have hnodup : (l ++ [p]).Nodup := by
    rw [List.nodup_append]
    refine ⟨hl.nodup, List.nodup_singleton p, fun a ha b hb => ?_⟩
    rw [List.mem_singleton.mp hb]
    rintro rfl
    exact hp ha
  rcases List.eq_nil_or_concat l with rfl | ⟨l', t, rfl⟩
  · have hhead : h.ListHead = none := hl.chain.head
    refine ⟨_, by simp only [hist_push_frag, Hist.write, hhead]; rfl,
      ⟨⟨rfl, ?_⟩, rfl, hnodup⟩, ?_⟩
    · simp [nextOf, Chain]
    · intro q
      by_cases hq : q = p
      · subst hq
        exact ⟨none, by simp⟩
      · exact ⟨(h.heap q).next, by simp [hq]⟩
  · rw [List.concat_eq_append] at *
    obtain ⟨a, hhead⟩ : ∃ a, h.ListHead = some a := by
      rw [hl.chain.head]
      cases l' <;> simp
    have htail : h.ListTail = some t := by simpa using hl.tail
    have htp : t ≠ p := fun he => hp (by simp [he])
    refine ⟨_, by simp only [hist_push_frag, Hist.write, hhead, htail]; rfl,
      ⟨?_, by simp, hnodup⟩, ?_⟩
    · have hchain := hl.chain
      rw [hhead] at hchain
      apply hchain.snoc
      · intro x hx
        have hxt : x ≠ t := by
          rintro rfl
          exact (List.nodup_append.mp hl.nodup).2.2 x hx x (by simp) rfl
        have hxp : x ≠ p := by
          rintro rfl
          exact hp (by simp [hx])
        simp [nextOf, hxt, hxp]
      · simp [nextOf, htp]
      · simp [nextOf]
    · intro q
      by_cases hq : q = p
      · subst hq
        exact ⟨none, by simp [htp.symm]⟩
      · by_cases hqt : q = t
        · subst hqt
          exact ⟨some p, by simp [hq]⟩
        · exact ⟨(h.heap q).next, by simp [hq, hqt]⟩

theorem hist_push_frag_eq {h : Hist} {l : List Ptr} {p : Ptr} (now : Nat) (hl : Linked h l)
    (hp : p ∉ l) (hs : l.length + 1 < MAX_BUFFER_ELEMS) :
    ∃ h', hist_push_frag now h p = .ok h' ∧ Linked h' (l ++ [p]) ∧
      ∀ q, ∃ o, h'.heap q = { h.heap q with
        next := o, time := if q = p then now + R_UDP_TIMEOUT else (h.heap q).time } := by
  obtain ⟨h', hpush, hl', hheap⟩ := hist_push_frag_queued now hl.toQueued hp
  exact ⟨h', hpush, ⟨hl', by simpa using hs⟩, hheap⟩

/-- A pop takes the head off the list. -/
theorem hist_pop_frag_queued {h : Hist} {p : Ptr} {ps : List Ptr} (hl : Queued h (p :: ps))
    (fifo : List Ptr) : Queued (hist_pop_frag h p fifo).1 ps := by
  obtain ⟨-, hchain⟩ := hl.chain
  have htail := hl.tail
  refine ⟨hchain, ?_, hl.nodup.of_cons⟩
  cases ps with
  | nil =>
    have hnone : nextOf h p = none := hchain
    simp [hist_pop_frag, hnone]
  | cons q qs =>
    have hsome : nextOf h p = some q := hchain.1
    simpa [hist_pop_frag, hsome] using htail

/-- A pass releases the buffers at the head of the list whose deadline is
over, in list order, up to the first whose deadline is not. -/
theorem free_history_queued {h : Hist} {l : List Ptr} (now : Nat) (hl : Queued h l) {fuel : Nat}
    (hf : l.length ≤ fuel) (fifo : List Ptr) :
    ∃ h', free_history now fuel h fifo =
        some (h', fifo ++ l.takeWhile fun p => (h.heap p).time ≤ now) ∧
      Queued h' (l.dropWhile fun p => (h.heap p).time ≤ now) ∧ h'.heap = h.heap := by
  induction l generalizing h fuel fifo with
  | nil =>
    have hhead : h.ListHead = none := hl.chain
    unfold free_history hist_peek_timed_head
    simp only [hhead, Option.filter_none]
    exact ⟨h, by simp, hl, rfl⟩
  | cons p ps ih =>
    obtain ⟨hhead, -⟩ := hl.chain
    unfold free_history hist_peek_timed_head
    rw [hhead]
    by_cases hto : (h.heap p).time ≤ now
    · cases fuel with
      | zero => simp at hf
      | succ fuel =>
        have hpop := hist_pop_frag_queued hl fifo
        obtain ⟨h', hrun, hl', hh'⟩ := ih hpop (by simpa using hf) (hist_pop_frag h p fifo).2
        have hheap : (hist_pop_frag h p fifo).1.heap = h.heap := rfl
        rw [hheap] at hrun hl' hh'
        refine ⟨h', ?_, ?_, hh'⟩
        · simp only [Option.filter_some, hto, decide_true, if_true, hrun, List.takeWhile_cons]
          simp [hist_pop_frag]
        · simpa [List.dropWhile_cons, hto] using hl'
    · simp only [Option.filter_some, hto, decide_false, Bool.false_eq_true, if_false,
        List.takeWhile_cons, List.dropWhile_cons, List.append_nil]
      exact ⟨h, rfl, hl, rfl⟩

theorem free_history_eq {h : Hist} {l : List Ptr} (now : Nat) (hl : Linked h l) {fuel : Nat}
    (hf : l.length ≤ fuel) (fifo : List Ptr) :
    ∃ h', free_history now fuel h fifo =
        some (h', fifo ++ l.takeWhile fun p => (h.heap p).time ≤ now) ∧
      Linked h' (l.dropWhile fun p => (h.heap p).time ≤ now) ∧ h'.heap = h.heap := by
  obtain ⟨h', hrun, hl', hheap⟩ := free_history_queued now hl.toQueued hf fifo
  have hlen := (List.dropWhile_sublist (fun p => decide ((h.heap p).time ≤ now)) (l := l)).length_le
  exact ⟨h', hrun, ⟨hl', hlen.trans_lt hl.short⟩, hheap⟩

end r_udp

end udp_service
