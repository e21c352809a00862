-- The two ends of the service over a network that loses and delays messages.
-- The sender is the uplink, the receiver asks for the fragments it misses,
-- and the sender answers from its history.
import UdpService.Stream
import UdpService.UplinkReplies

open blocks runs

namespace udp_service

namespace retransmission

open hs_udp_fragments rudp_req hs_udp_service r_udp wire reassembly stream

/-! ## The two ends -/

/-- The state of the two ends and of the network between them. `data` and
`asks` are the messages under way, to the receiver and to the sender, and
`toDevice` is what the receiver handed to its device. -/
structure Link where
  up : uplink.Uplink
  data : List (List UInt8)
  asks : List (List UInt8)
  upRx : MsgBuf
  downRx : MsgBuf
  rcv : Receiver
  toDevice : List (List UInt8)

inductive Action
  /-- A piece of a turn of the sender, other than an answer to a request. -/
  | sender (a : uplink.Action)
  /-- Message `k` to the receiver arrives. The requests that it causes go out
  with the pad bits `pad`. -/
  | arrive (k now : Nat) (pad : Fin 64)
  /-- Message `k` to the sender arrives and is answered. -/
  | answer (k : Nat)
  | loseData (k : Nat)
  | loseAsk (k : Nat)
  | sweep (curTime : Nat)

/-- The two ends after the start. -/
def init (feed : Feed) (heap : Ptr → MsgBuf) (now : Nat) (upRx downRx : MsgBuf) : Link :=
  { up := uplink.init feed heap now, data := [], asks := [], upRx, downRx, rcv := .init
    toDevice := [] }

/-- The piece is one of `handle_lost_request`. -/
def isAnswer : uplink.Action → Bool
  | .findFrag _ => true
  | .lingerFrag => true
  | .sendReply => true
  | _ => false

/-- The messages that an action of the sender transmitted. -/
def transmitted (s s' : uplink.Uplink) : List (List UInt8) :=
  (s'.log.drop s.log.length).map fun e => bytesOf e.msg

/-- One action, or `none` where it cannot be taken or the receiver ends in a
fault. -/
def step (s : Link) : Action → Option Link
  | .sender a =>
    if isAnswer a then none
    else
      match uplink.step s.up a with
      | some up => some { s with up, data := s.data ++ transmitted s.up up }
      | none => none
  | .arrive k now pad =>
    match s.data[k]? with
    | some bytes =>
      match deliver now s.downRx s.rcv bytes with
      | .ok (downRx, t) =>
        some { s with
          data := s.data.eraseIdx k
          asks := s.asks ++ t.reqs.map (hub_send_req pad)
          downRx
          rcv := t.rcv
          toDevice := s.toDevice ++ t.sent.toList }
      | .error _ => none
    | none => none
  | .answer k =>
    match s.asks[k]? with
    | some bytes =>
      match fusion_receive s.upRx bytes with
      | (upRx, .request req) =>
        match handle_lost_request s.up.hist req with
        | some (hist, some pkt) =>
          some { s with
            up := { s.up with hist }
            data := s.data ++ [bytesOf (hist.heap pkt)]
            asks := s.asks.eraseIdx k
            upRx }
        | some (_, none) => some { s with asks := s.asks.eraseIdx k, upRx }
        | none => none
      | (upRx, _) => some { s with asks := s.asks.eraseIdx k, upRx }
    | none => none
  | .loseData k => some { s with data := s.data.eraseIdx k }
  | .loseAsk k => some { s with asks := s.asks.eraseIdx k }
  | .sweep curTime => some { s with rcv := r_udp_req_routine curTime s.rcv }

/-- What each action needs and does. A request that is not answered leaves the
sender as it was. -/
inductive Moves (s : Link) : Action → Link → Prop
  | sender (a : uplink.Action) (up : uplink.Uplink) (piece : isAnswer a = false)
      (move : uplink.step s.up a = some up) :
      Moves s (.sender a) { s with up, data := s.data ++ transmitted s.up up }
  | arrive (k now : Nat) (pad : Fin 64) (bytes : List UInt8) (downRx : MsgBuf) (t : Transmitted)
      (came : s.data[k]? = some bytes) (turn : deliver now s.downRx s.rcv bytes = .ok (downRx, t)) :
      Moves s (.arrive k now pad) { s with
        data := s.data.eraseIdx k
        asks := s.asks ++ t.reqs.map (hub_send_req pad)
        downRx
        rcv := t.rcv
        toDevice := s.toDevice ++ t.sent.toList }
  | answered (k : Nat) (upRx : MsgBuf) (req : RUdpFragmntReq) (hist : Hist) (pkt : Ptr)
      (answer : handle_lost_request s.up.hist req = some (hist, some pkt)) :
      Moves s (.answer k) { s with
        up := { s.up with hist }
        data := s.data ++ [bytesOf (hist.heap pkt)]
        asks := s.asks.eraseIdx k
        upRx }
  | unanswered (k : Nat) (upRx : MsgBuf) :
      Moves s (.answer k) { s with asks := s.asks.eraseIdx k, upRx }
  | loseData (k : Nat) : Moves s (.loseData k) { s with data := s.data.eraseIdx k }
  | loseAsk (k : Nat) : Moves s (.loseAsk k) { s with asks := s.asks.eraseIdx k }
  | sweep (curTime : Nat) :
      Moves s (.sweep curTime) { s with rcv := r_udp_req_routine curTime s.rcv }

theorem moves_of_step {s s' : Link} {a : Action} (h : step s a = some s') : Moves s a s' := by
  unfold step at h
  cases a with
  | sender a =>
    simp only at h
    split at h
    · cases h
    · rename_i piece
      split at h
      · rename_i up move
        cases h
        exact .sender a up (Bool.not_eq_true _ ▸ piece) move
      · cases h
  | arrive k now pad =>
    simp only at h
    split at h
    · rename_i bytes came
      split at h
      · rename_i downRx t turn
        cases h
        exact .arrive k now pad bytes downRx t came turn
      · cases h
    · cases h
  | answer k =>
    simp only at h
    split at h
    · split at h
      · rename_i upRx req _
        split at h
        · rename_i hist pkt answer
          cases h
          exact .answered k upRx req hist pkt answer
        · cases h
          exact .unanswered k upRx
        · cases h
      · cases h
        exact .unanswered k _
    · cases h
  | loseData k =>
    cases h
    exact .loseData k
  | loseAsk k =>
    cases h
    exact .loseAsk k
  | sweep curTime =>
    cases h
    exact .sweep curTime

/-! ## The answers are runs of the uplink -/

/-- `handle_lost_request` at once is a search, a store of the deadline and a
send with nothing between them. -/
theorem answer_run {up : uplink.Uplink} {req : RUdpFragmntReq} {hist : Hist} {pkt : Ptr}
    (hidle : up.answer = .idle)
    (hans : handle_lost_request up.hist req = some (hist, some pkt)) :
    run uplink.step up [.findFrag req, .lingerFrag, .sendReply] = some { up with hist } := by
  obtain ⟨hfind, rfl⟩ := handle_lost_request_eq_some.mp hans
  rcases up with ⟨h, fin, fout, iot, rx, fus, ans, clock, reads, owner, pushedAt, log⟩
  simp only at hidle hfind
  subst hidle
  simp [run, uplink.step, hfind]

/-- The sender between two actions of the link. -/
structure Sending (feed : Feed) (heap : Ptr → MsgBuf) (now : Nat) (up : uplink.Uplink) : Prop where
  reachable : Reachable uplink.step (uplink.init feed heap now) up
  idle : up.answer = .idle

section sending

variable {feed : Feed} {heap : Ptr → MsgBuf} {now : Nat} {up up' : uplink.Uplink}

theorem Sending.step {a : uplink.Action} (h : Sending feed heap now up) (ha : isAnswer a = false)
    (hs : uplink.step up a = some up') : Sending feed heap now up' := by
  refine ⟨h.reachable.next hs, ?_⟩
  have hidle := h.idle
  cases uplink.moves_of_step hs <;> first | exact hidle | cases ha

theorem Sending.answer {req : RUdpFragmntReq} {hist : Hist} {pkt : Ptr}
    (h : Sending feed heap now up)
    (hans : handle_lost_request up.hist req = some (hist, some pkt)) :
    Sending feed heap now { up with hist } :=
  ⟨h.reachable.trans ⟨_, answer_run h.idle hans⟩, h.idle⟩

end sending

/-! ## What travels -/

/-- A message with the body of a fragment, that is no request, is the fragment. -/
theorem isFrgmnt_of_body {b b' : MsgBuf} {s i : Nat} {d : List UInt8} (h : IsFrgmnt b s d i)
    (hb : uplink.body b = uplink.body b')
    (hcode : b'.msgHeader.msgCode ≠ MSG_CODE_REQUEST_FRAG) : IsFrgmnt b' s d i := by
  obtain ⟨hidx, hfr, hseq, -, hlen, hdata⟩ := uplink.fields_of_body hb
  refine ⟨by rw [← hseq]; exact h.seqNum, by rw [← hidx]; exact h.frgmntIdx,
    by rw [← hfr]; exact h.frgmnts, ?_, h.inside, decide_eq_false hcode⟩
  rw [← hdata, ← hlen]
  exact h.data

/-- A message that was transmitted is the fragment that it stands for. -/
theorem isFrgmnt_logged {reads : List (List UInt8)} {e : uplink.Transmission}
    (hf : uplink.Filled reads e.owner e.msg) (hh : uplink.Headed e.msg) :
    ∃ d, 0 < e.owner.1 ∧ reads[e.owner.1 - 1]? = some d ∧ d.length ≤ NET_PACKET_SIZE ∧
      IsFrgmnt e.msg (e.owner.1 % 16) d e.owner.2 := by
  obtain ⟨d, hpos, hd, hle, hi, hfill⟩ := hf
  refine ⟨d, hpos, hd, hle, ?_⟩
  have hfrg := isFrgmnt_filled hle (e.owner.1 % 2 ^ 8) hi (uplink.body e.msg)
  rw [hfill, Nat.mod_mod_of_dvd _ (by decide)] at hfrg
  exact isFrgmnt_of_body hfrg hh.fields hh.code

/-- The bytes are a message that carries a fragment of a datagram that was
read. `j` counts the datagrams from 1. -/
def Travels (reads : List (List UInt8)) (bytes : List UInt8) : Prop :=
  ∃ j d i msg, bytes = bytesOf msg ∧ 0 < j ∧ reads[j - 1]? = some d ∧
    d.length ≤ NET_PACKET_SIZE ∧ IsFrgmnt msg (j % 16) d i

theorem Travels.append {reads : List (List UInt8)} {bytes : List UInt8} (h : Travels reads bytes)
    (l : List (List UInt8)) : Travels (reads ++ l) bytes := by
  obtain ⟨j, d, i, msg, hb, hj, hd, hrest⟩ := h
  exact ⟨j, d, i, msg, hb, hj, uplink.reads_append hd l, hrest⟩

/-- What the sender transmits are fragments of what it read. -/
theorem transmitted_travels {feed : Feed} {heap : Ptr → MsgBuf} {now : Nat} {up up' : uplink.Uplink}
    (h : Sending feed heap now up') {bytes : List UInt8} (hb : bytes ∈ transmitted up up') :
    Travels up'.reads bytes := by
  obtain ⟨e, he, rfl⟩ := List.mem_map.mp hb
  obtain ⟨-, -, hc⟩ := uplink.reachable_carried h.reachable
  obtain ⟨hf, hh⟩ := hc.logged e (List.mem_of_mem_drop he)
  obtain ⟨d, hpos, hd, hle, hm⟩ := isFrgmnt_logged hf hh
  exact ⟨_, d, _, e.msg, rfl, hpos, hd, hle, hm⟩

/-- So is what it answers with. -/
theorem answer_travels {feed : Feed} {heap : Ptr → MsgBuf} {now : Nat} {up : uplink.Uplink}
    {req : RUdpFragmntReq} {hist : Hist} {pkt : Ptr} (h : Sending feed heap now up)
    (hans : handle_lost_request up.hist req = some (hist, some pkt)) :
    Travels up.reads (bytesOf (hist.heap pkt)) := by
  obtain ⟨hw, -, hc⟩ := uplink.reachable_carried h.reachable
  obtain ⟨hfind, rfl⟩ := handle_lost_request_eq_some.mp hans
  rw [hist_find_frag_eq hw.linked, Option.some.injEq] at hfind
  have hmem : pkt ∈ uplink.gone up := List.mem_append_left _ (List.mem_of_find?_eq_some hfind)
  obtain ⟨e, he, -, hbody⟩ := hc.sent pkt hmem
  obtain ⟨hf, hh⟩ := hc.logged e he
  obtain ⟨d, hpos, hd, hle, hm⟩ := isFrgmnt_logged hf hh
  have hreply : IsFrgmnt ((markReply (linger up.hist pkt) pkt).heap pkt) (e.owner.1 % 16) d
      e.owner.2 := by
    rw [markReply_linger]
    apply isFrgmnt_of_body hm
    · exact hbody
    · simp [asReply]
  exact ⟨_, d, _, _, rfl, hpos, hd, hle, hreply⟩

/-! ## What the slots gather -/

/-- Every sequence number below `MAX_PKTS` is used by one datagram at most,
and the others by none. Empty datagrams use none: nothing is sent for them. -/
structure Numbered (reads : List (List UInt8)) : Prop where
  low : ∀ (j : Nat) (d : List UInt8), reads[j]? = some d → d ≠ [] → (j + 1) % 16 < MAX_PKTS
  once : ∀ (j j' : Nat) (d d' : List UInt8), reads[j]? = some d → reads[j']? = some d' → d ≠ [] →
    d' ≠ [] → (j + 1) % 16 = (j' + 1) % 16 → j = j'

theorem Numbered.of_append {reads l : List (List UInt8)} (h : Numbered (reads ++ l)) :
    Numbered reads where
  low j d hd := h.low j d (uplink.reads_append hd l)
  once j j' d d' hd hd' :=
    h.once j j' d d' (uplink.reads_append hd l) (uplink.reads_append hd' l)

/-- What is under way for a number is the one datagram with the number, and no
fragment of it came twice. -/
def UnderWay (reads : List (List UInt8)) (σ : Slots) : Prop :=
  ∀ s p, σ s = some p → ∃ j, 0 < j ∧ reads[j - 1]? = some p.d ∧ p.d ≠ [] ∧ j % 16 = s.val ∧
    p.came.Nodup

theorem UnderWay.append {reads : List (List UInt8)} {σ : Slots} (h : UnderWay reads σ)
    (l : List (List UInt8)) : UnderWay (reads ++ l) σ := by
  intro s p hp
  obtain ⟨j, hj, hd, hrest⟩ := h s p hp
  exact ⟨j, hj, uplink.reads_append hd l, hrest⟩

theorem UnderWay.came_nodup {reads : List (List UInt8)} {σ : Slots} (h : UnderWay reads σ)
    (s : Fin MAX_PKTS) : (cameOf σ s).Nodup := by
  unfold cameOf
  rcases ho : σ s with _ | p
  · exact List.nodup_nil
  · obtain ⟨-, -, -, -, -, hnodup⟩ := h s p ho
    exact hnodup

/-- What is under way under the number of a datagram is the datagram. -/
theorem UnderWay.same {reads : List (List UInt8)} {σ : Slots} (h : UnderWay reads σ)
    (hn : Numbered reads) {s : Fin MAX_PKTS} {j : Nat} {d : List UInt8} (hj : 0 < j)
    (hd : reads[j - 1]? = some d) (hne : d ≠ []) (hs : j % 16 = s.val) {p : Pending}
    (hp : σ s = some p) : p.d = d := by
  obtain ⟨j', hj', hd', hne', hs', -⟩ := h s p hp
  have hjj := hn.once (j' - 1) (j - 1) p.d d hd' hd hne' hne
    (by rw [Nat.sub_add_cancel hj, Nat.sub_add_cancel hj', hs, hs'])
  rw [hjj, hd] at hd'
  exact (Option.some.inj hd').symm

/-- The arrival of a fragment that did not come before. -/
theorem UnderWay.arrive {reads : List (List UInt8)} {σ : Slots} (h : UnderWay reads σ)
    {s : Fin MAX_PKTS} {j i : Nat} {d : List UInt8} (hj : 0 < j) (hd : reads[j - 1]? = some d)
    (hne : d ≠ []) (hs : j % 16 = s.val) (hnodup : (cameOf σ s ++ [i]).Nodup) :
    UnderWay reads (arrive σ s d i) := by
  intro s' p hp
  unfold reassembly.arrive at hp
  by_cases hss : s' = s
  · subst hss
    rw [Function.update_self] at hp
    split at hp
    · cases hp
    · cases hp
      exact ⟨j, hj, hd, hne, hs, hnodup⟩
  · rw [Function.update_of_ne hss] at hp
    exact h s' p hp

/-- The fragment is recorded in the mask of the slot that is in use for its
number. -/
def recorded (r : Receiver) (msg : MsgBuf) : Bool :=
  match find_terminal r.table TERMINAL_ID msg.msgHeader.seqNum with
  | some h => (r.table.fragments h).frags_mask.getLsbD msg.msgHeader.frgmntIdx
  | none => false

/-- A fragment that is not recorded did not come. -/
theorem not_mem_cameOf {r : Receiver} {σ : Slots} {msg : MsgBuf} {s : Fin MAX_PKTS}
    {d : List UInt8} {i : Nat} (ht : Tracks r σ) (hm : IsFrgmnt msg s d i)
    (hrec : recorded r msg = false) : i ∉ cameOf σ s := by
  have hs := ht s
  unfold cameOf
  rcases ho : σ s with _ | p
  · simp
  · rw [ho] at hs
    obtain ⟨hg, -⟩ := hs
    unfold recorded at hrec
    rw [hm.seqNum, find_terminal_slot, if_pos ⟨hg.terminalId, hg.used⟩] at hrec
    simp only [hm.frgmntIdx, hg.mask, decide_eq_false_iff_not] at hrec
    exact hrec

/-- One arrival of a fragment that is not recorded: what it completes is the
datagram. -/
theorem arrive_sound {reads : List (List UInt8)} (hn : Numbered reads) {r : Receiver} {σ : Slots}
    (ht : Tracks r σ) (hu : UnderWay reads σ) {bytes : List UInt8} (hb : Travels reads bytes)
    (now : Nat) (rx : MsgBuf)
    (hrec : ∀ msg, (fusion_receive rx bytes).2 = .data msg → recorded r msg = false) :
    ∃ m t σ', deliver now rx r bytes = .ok (m, t) ∧ Tracks t.rcv σ' ∧ UnderWay reads σ' ∧
      ∀ b, t.sent = some b → b ∈ reads ∧ b ≠ [] := by
  obtain ⟨j, d, i, msg, rfl, hj, hd, hle, hm⟩ := hb
  obtain ⟨m, hrcv, hm'⟩ := isFrgmnt_received rx hm
  have hne : d ≠ [] := by
    rintro rfl
    have := lt_frgmntsOf.mp hm.inside
    simp at this
  have hlow := hn.low (j - 1) d hd hne
  rw [Nat.sub_add_cancel hj] at hlow
  have hfresh := not_mem_cameOf (s := ⟨j % 16, hlow⟩) ht hm' (hrec m (by rw [hrcv]))
  have hnodup : (cameOf σ ⟨j % 16, hlow⟩ ++ [i]).Nodup := by
    rw [List.nodup_append]
    refine ⟨hu.came_nodup _, List.nodup_singleton i, fun a ha b hb => ?_⟩
    rw [List.mem_singleton.mp hb]
    exact ne_of_mem_of_not_mem ha hfresh
  obtain ⟨t, hit, htr, -, hsent⟩ := iot_transmit_tracks (s := ⟨j % 16, hlow⟩) now ht hle hm'
    fun _ hp => hu.same hn hj hd hne rfl hp
  refine ⟨m, t, _, ?_, htr, hu.arrive hj hd hne rfl hnodup, ?_⟩
  · unfold deliver
    rw [hrcv]
    simp only [hit]
    rfl
  · intro b hbs
    split at hsent
    · rw [hsent hnodup] at hbs
      cases hbs
      exact ⟨List.mem_of_getElem? hd, hne⟩
    · rw [hsent] at hbs
      cases hbs

/-! ## The law of the two ends -/

/-- No fragment arrives that its slot has recorded. -/
def fresh (s : Link) : Action → Bool
  | .arrive k _ _ =>
    match s.data[k]? with
    | some bytes =>
      match (fusion_receive s.downRx bytes).2 with
      | .data msg => !recorded s.rcv msg
      | _ => true
    | none => true
  | _ => true

/-- What holds of the two ends while every arrival is fresh. -/
structure Sound (feed : Feed) (heap : Ptr → MsgBuf) (now : Nat) (s : Link) : Prop where
  data : ∀ bytes ∈ s.data, Travels s.up.reads bytes
  slots : ∃ σ, Tracks s.rcv σ ∧ UnderWay s.up.reads σ
  toDevice : ∀ b ∈ s.toDevice, b ∈ s.up.reads ∧ b ≠ []

section sound

variable {feed : Feed} {heap : Ptr → MsgBuf} {now : Nat} {s s' : Link} {a : Action}

theorem reads_step {up up' : uplink.Uplink} {a : uplink.Action}
    (h : uplink.step up a = some up') : ∃ l, up'.reads = up.reads ++ l := by
  cases uplink.moves_of_step h with
  | iotRecv d hand done size => exact ⟨[d], rfl⟩
  | _ => exact ⟨[], (List.append_nil _).symm⟩

theorem sending_moves (h : Sending feed heap now s.up) (hm : Moves s a s') :
    Sending feed heap now s'.up ∧ ∃ l, s'.up.reads = s.up.reads ++ l := by
  have hsame : ∃ l, s.up.reads = s.up.reads ++ l := ⟨[], (List.append_nil _).symm⟩
  cases hm with
  | sender a up piece move => exact ⟨h.step piece move, reads_step move⟩
  | answered k upRx req hist pkt answer => exact ⟨h.answer answer, hsame⟩
  | _ => exact ⟨h, hsame⟩

/-- One action of the two ends. -/
theorem sound_moves (hup : Sending feed heap now s.up) (h : Sound feed heap now s)
    (hn : Numbered s'.up.reads) (hf : fresh s a = true) (hm : Moves s a s') :
    Sound feed heap now s' := by
  obtain ⟨hup', l, hreads⟩ := sending_moves hup hm
  obtain ⟨σ, ht, hu⟩ := h.slots
  have hn₀ : Numbered s.up.reads := by
    rw [hreads] at hn
    exact hn.of_append
  cases hm with
  | sender a up piece move =>
    simp only at hreads
    refine ⟨fun bytes hb => ?_, ⟨σ, ht, by rw [hreads]; exact hu.append l⟩, fun b hb => ?_⟩
    · rcases List.mem_append.mp hb with hb | hb
      · rw [hreads]
        exact (h.data bytes hb).append l
      · exact transmitted_travels hup' hb
    · rw [hreads]
      exact ⟨List.mem_append_left _ (h.toDevice b hb).1, (h.toDevice b hb).2⟩
  | arrive k at' pad bytes downRx t came turn =>
    have hrec : ∀ msg, (fusion_receive s.downRx bytes).2 = .data msg →
        recorded s.rcv msg = false := by
      intro msg hmsg
      unfold fresh at hf
      simpa [came, hmsg] using hf
    obtain ⟨m, t', σ', hdel, ht', hu', hsent⟩ := arrive_sound hn₀ ht hu
      (h.data bytes (List.mem_of_getElem? came)) at' s.downRx hrec
    rw [turn] at hdel
    cases hdel
    refine ⟨fun bytes hb => h.data bytes (List.mem_of_mem_eraseIdx hb), ⟨σ', ht', hu'⟩,
      fun b hb => ?_⟩
    rcases List.mem_append.mp hb with hb | hb
    · exact h.toDevice b hb
    · exact hsent b (Option.mem_toList.mp hb)
  | answered k upRx req hist pkt answer =>
    refine ⟨fun bytes hb => ?_, ⟨σ, ht, hu⟩, h.toDevice⟩
    rcases List.mem_append.mp hb with hb | hb
    · exact h.data bytes hb
    · rw [List.mem_singleton.mp hb]
      have htravels := answer_travels hup answer
      exact htravels
  | loseData k =>
    exact ⟨fun bytes hb => h.data bytes (List.mem_of_mem_eraseIdx hb), ⟨σ, ht, hu⟩, h.toDevice⟩
  | sweep curTime =>
    refine ⟨h.data, ⟨_, tracks_sweep curTime ht, fun s' p hp => ?_⟩, h.toDevice⟩
    unfold sweep at hp
    split at hp
    · cases hp
    · exact hu s' p hp
  | _ => exact ⟨h.data, ⟨σ, ht, hu⟩, h.toDevice⟩

theorem sound_init (heap : Ptr → MsgBuf) (now : Nat) (upRx downRx : MsgBuf) :
    Sound feed heap now (init feed heap now upRx downRx) := by
  refine ⟨?_, ⟨fun _ => none, tracks_init, ?_⟩, ?_⟩
  · intro b hb
    cases hb
  · intro s p hp
    cases hp
  · intro b hb
    cases hb

/-- What holds of the two ends after a run whose arrivals were all fresh. -/
theorem sound_of_run {upRx downRx : MsgBuf} {as : List Action}
    (hr : run step (init feed heap now upRx downRx) as = some s) (hn : Numbered s.up.reads)
    (hf : Guarded step (fun s a => fresh s a = true) (init feed heap now upRx downRx) as) :
    Sending feed heap now s.up ∧ Sound feed heap now s := by
  have hinv : Sending feed heap now s.up ∧ (Numbered s.up.reads → Sound feed heap now s) := by
    refine run_invariant_guarded (I := fun s => Sending feed heap now s.up ∧
      (Numbered s.up.reads → Sound feed heap now s)) ?_
      ⟨⟨Reachable.refl _, rfl⟩, fun _ => sound_init heap now upRx downRx⟩ hf hr
    intro s a s' ⟨hup, hsound⟩ hfresh hs
    have hm := moves_of_step hs
    obtain ⟨hup', l, hreads⟩ := sending_moves hup hm
    refine ⟨hup', fun hn => sound_moves hup (hsound ?_) hn hfresh hm⟩
    rw [hreads] at hn
    exact hn.of_append
  exact ⟨hinv.1, hinv.2 hn⟩

end sound

/-- Retransmission never corrupts a datagram in a run in which no fragment
arrives that the slot of its packet has recorded. What the device gets are
datagrams that were read at the other end. -/
theorem retransmission_keeps_datagrams_when_arrivals_are_fresh (feed : Feed) (heap : Ptr → MsgBuf)
    (now : Nat) (upRx downRx : MsgBuf) (as : List Action) (s : Link)
    (hr : run step (init feed heap now upRx downRx) as = some s) (hn : Numbered s.up.reads)
    (hf : Guarded step (fun s a => fresh s a = true) (init feed heap now upRx downRx) as) :
    ∀ b ∈ s.toDevice, b ∈ s.up.reads ∧ b ≠ [] := by
  obtain ⟨-, hsound⟩ := sound_of_run hr hn hf
  exact hsound.toDevice

/-- The sender reads a datagram of `n` fragments and sends them all. -/
def sendAll (d : List UInt8) (n : Nat) : List Action :=
  ((.iotRecv d :: (List.replicate n [uplink.Action.iotGet, .iotFill, .iotPut, .fusionGet,
    .fusionHeader, .fusionSend, .fusionPush]).flatten) : List uplink.Action).map .sender

/-- A datagram of two fragments, number 1. Its first fragment is lost, the one
of the next datagram brings the request for it, and the answer completes it. -/
def lostAndFound : List Action :=
  sendAll (List.replicate 61 7) 2 ++ sendAll [9] 1 ++
    [.loseData 0, .arrive 0 3 0, .arrive 0 3 0, .answer 0, .arrive 0 4 0]

theorem numbered_pair (d d' : List UInt8) : Numbered [d, d'] := by
  constructor
  · intro j e he _
    have hj := (List.getElem?_eq_some_iff.mp he).1
    simp only [List.length_cons, List.length_nil] at hj
    simp only [MAX_PKTS]
    omega
  · intro j j' e e' he he' _ _ hmod
    have hj := (List.getElem?_eq_some_iff.mp he).1
    have hj' := (List.getElem?_eq_some_iff.mp he').1
    simp only [List.length_cons, List.length_nil] at hj hj'
    omega

theorem a_lost_fragment_is_recovered :
    ∃ s, run step (init uplink.numbered (fun _ => .zero) 0 .zero .zero) lostAndFound = some s ∧
      s.toDevice.length = 2 ∧ ∀ b ∈ s.toDevice, b ∈ s.up.reads ∧ b ≠ [] := by
  have hrun : (run step (init uplink.numbered (fun _ => .zero) 0 .zero .zero) lostAndFound).map
      (fun s => (s.up.reads, s.toDevice.length)) = some ([List.replicate 61 7, [9]], 2) := by
    decide +kernel
  obtain ⟨s, hs, hstate⟩ := Option.map_eq_some_iff.mp hrun
  obtain ⟨hreads, hlen⟩ := Prod.mk.inj hstate
  exact ⟨s, hs, hlen, retransmission_keeps_datagrams_when_arrivals_are_fresh uplink.numbered
    (fun _ => .zero) 0 .zero .zero lostAndFound s hs (by rw [hreads]; exact numbered_pair _ _)
    (by decide +kernel)⟩

/-- A datagram of four fragments, number 1, and a datagram of one. The second
and the fourth fragment are lost. The gap and the end of the packet both bring
a request for the second one, and its two copies fill up the count. -/
def askedTwice : List Action :=
  sendAll (List.replicate 181 7) 4 ++ sendAll [9] 1 ++
    [.arrive 0 3 0, .arrive 1 3 0, .arrive 2 3 0, .answer 0, .answer 0, .loseData 0, .loseData 0,
      .arrive 0 4 0, .arrive 0 4 0]

/-- The device gets 240 bytes, and no datagram of that length was read. -/
theorem a_fragment_asked_for_twice_corrupts :
    ∃ s, run step (init uplink.numbered (fun _ => .zero) 0 .zero .zero) askedTwice = some s ∧
      Numbered s.up.reads ∧ ∃ b ∈ s.toDevice, b ∉ s.up.reads := by
  have hrun : (run step (init uplink.numbered (fun _ => .zero) 0 .zero .zero) askedTwice).map
      (fun s => (s.up.reads, s.toDevice.map List.length)) =
      some ([List.replicate 181 7, [9]], [1, 240]) := by decide +kernel
  obtain ⟨s, hs, hstate⟩ := Option.map_eq_some_iff.mp hrun
  obtain ⟨hreads, hlen⟩ := Prod.mk.inj hstate
  have hmem : 240 ∈ s.toDevice.map List.length := by simp [hlen]
  obtain ⟨b, hb, h240⟩ := List.mem_map.mp hmem
  refine ⟨s, hs, by rw [hreads]; exact numbered_pair _ _, b, hb, fun hin => ?_⟩
  rw [hreads] at hin
  rcases List.mem_pair.mp hin with rfl | rfl
  · rw [List.length_replicate] at h240
    omega
  · cases h240

end retransmission

end udp_service
