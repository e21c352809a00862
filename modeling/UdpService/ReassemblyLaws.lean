-- The laws of the reassembly: the fragments of many datagrams, cut as the
-- sender cuts them, are fed to `defragment` one by one.
import UdpService.Reassembly

open blocks

namespace udp_service

namespace reassembly

open hs_udp_fragments rudp_req hs_udp_service

/-! ## The messages of a datagram are its fragments -/

theorem isFrgmnt_filled {d : List UInt8} (hd : d.length ≤ NET_PACKET_SIZE) (txSeqNum : Nat)
    {i : Nat} (hi : i < frgmntsOf d.length) (b : MsgBuf) :
    IsFrgmnt (fusion_header (filled d txSeqNum i b)) (txSeqNum % 16) d i := by
  have h25 := frgmntsOf_le hd
  have hlen : (frgmntOf d i).length ≤ MAX_MSG_SIZE := by
    rw [frgmntOf_length]
    simp only [MAX_MSG_SIZE]
    omega
  have hmask : txSeqNum &&& 15 = txSeqNum % 16 := Nat.and_two_pow_sub_one_eq_mod txSeqNum 4
  refine ⟨?_, ?_, ?_, ⟨hlen, ?_⟩, hi, ?_⟩
  · simp [fusion_header, filled, hmask]
  · simp only [fusion_header, filled, Fin.val_ofNat]
    omega
  · simp only [fusion_header, filled, Fin.val_ofNat]
    omega
  · exact Buffer.bytes_padded 0 _ hlen
  · simp [fusion_header, retransmit_msg]

/-- A datagram that was sent: read when the running number was `txSeqNum`,
into buffers that held `pool`. -/
structure Sent where
  dg : Datagram
  txSeqNum : Nat
  pool : Nat → MsgBuf

namespace Sent

/-- The sequence number in the headers of its messages. -/
def seqNum (x : Sent) : Nat := (x.txSeqNum + 1) % 2 ^ 8 % 16

def messages (x : Sent) : List MsgBuf := hs_udp_service.messages x.pool x.txSeqNum x.dg.bytes

def frgmnts (x : Sent) : Nat := frgmntsOf x.dg.bytes.length

theorem messages_length (x : Sent) : x.messages.length = x.frgmnts := by
  simp [messages, frgmnts, messages_eq _ _ x.dg.le]

/-- Message `i` of the datagram. -/
def message (x : Sent) (i : Nat) : MsgBuf :=
  fusion_header (filled x.dg.bytes ((x.txSeqNum + 1) % 2 ^ 8) i (x.pool i))

theorem messages_getElem? (x : Sent) {i : Nat} (hi : i < x.frgmnts) :
    x.messages[i]? = some (x.message i) := by
  unfold frgmnts at hi
  simp [messages, message, messages_eq _ _ x.dg.le, List.getElem?_range hi]

theorem messages_isFrgmnt {x : Sent} {i : Nat} {msg : MsgBuf} (h : x.messages[i]? = some msg) :
    IsFrgmnt msg x.seqNum x.dg.bytes i := by
  have hi : i < x.frgmnts := by
    rw [← messages_length]
    exact (List.getElem?_eq_some_iff.mp h).1
  rw [messages_getElem? x hi] at h
  cases h
  exact isFrgmnt_filled x.dg.le _ hi _

end Sent

/-! ## Feeding `defragment` -/

/-- What a call of `defragment` returned: its value, and the first `size`
bytes of `*outFragment`, or nothing for NULL. -/
structure Outcome where
  ret : Int
  handle : Option (List UInt8)
deriving DecidableEq

/-- One call of `defragment`, with the release after a completion. -/
def feedOne (now : Nat) (r : Receiver) (msg : MsgBuf) : Except Fault (Receiver × Outcome) :=
  match defragment now r msg with
  | .error e => .error e
  | .ok c =>
    match c.outFragment with
    | none => .ok (c.rcv, ⟨c.ret, none⟩)
    | some handle =>
      match payload (c.rcv.table.fragments handle) with
      | .error e => .error e
      | .ok bytes => .ok (released c, ⟨c.ret, some bytes⟩)

/-- The calls for a list of messages, each at its own time. -/
def feed (r : Receiver) : List (Nat × MsgBuf) → Except Fault (Receiver × List Outcome)
  | [] => .ok (r, [])
  | (now, msg) :: es =>
    match feedOne now r msg with
    | .error e => .error e
    | .ok (r', o) =>
      match feed r' es with
      | .error e => .error e
      | .ok (r'', os) => .ok (r'', o :: os)

/-- The outcome of the `n`-th fragment that came of a datagram. -/
def outcomeAt (x : Sent) (n : Nat) : Outcome :=
  if x.frgmnts ≤ n then ⟨0, some x.dg.bytes⟩ else ⟨-1, none⟩

theorem feedOne_tracks {r : Receiver} {σ : Slots} {msg : MsgBuf} {x : Sent} {i : Nat}
    {s : Fin MAX_PKTS} (now : Nat) (h : Tracks r σ) (hs : s.val = x.seqNum)
    (hm : x.messages[i]? = some msg) (hsame : ∀ p, σ s = some p → p.d = x.dg.bytes)
    (hn : (cameOf σ s ++ [i]).Nodup) :
    ∃ r', feedOne now r msg = .ok (r', outcomeAt x ((cameOf σ s).length + 1)) ∧
      Tracks r' (arrive σ s x.dg.bytes i) := by
  have hf := Sent.messages_isFrgmnt hm
  rw [← hs] at hf
  obtain ⟨c, hc, htr, -, hout⟩ := defragment_tracks now h x.dg.le hf hsame
  refine ⟨released c, ?_, htr⟩
  unfold feedOne outcomeAt Sent.frgmnts
  simp only [hc]
  split at hout
  · rename_i hall
    obtain ⟨hret, hhandle, b, hpay, hb⟩ := hout
    simp only [hret, hhandle, hpay, if_pos hall, hb hn]
  · rename_i hall
    obtain ⟨hret, hhandle⟩ := hout
    simp only [hret, hhandle, if_neg hall, released]

/-! ## Orders of arrival

An arrival is a pair: the place of the datagram in the list of the datagrams
sent, and the index of the fragment. -/

/-- All the fragments of the datagrams, in the order they were sent. -/
def allFrgmnts (xs : List Sent) : List (Nat × Nat) :=
  xs.zipIdx.flatMap fun (x, j) => (List.range x.frgmnts).map (j, ·)

/-- The message is fragment `o.2` of datagram `o.1`. -/
def MessageOf (xs : List Sent) (o : Nat × Nat) (msg : MsgBuf) : Prop :=
  ∃ x, xs[o.1]? = some x ∧ x.messages[o.2]? = some msg

/-- The sequence number of datagram `j`. -/
def seqOf (xs : List Sent) (j : Nat) : Option Nat := xs[j]?.map Sent.seqNum

/-- The fragments of datagram `j` among the arrivals, in their order. -/
def cameIn (os : List (Nat × Nat)) (j : Nat) : List Nat :=
  (os.filter fun o => o.1 = j).map (·.2)

theorem mem_allFrgmnts {xs : List Sent} {o : Nat × Nat} :
    o ∈ allFrgmnts xs ↔ ∃ x, xs[o.1]? = some x ∧ o.2 < x.frgmnts := by
  unfold allFrgmnts
  simp only [List.mem_flatMap, List.mem_map, List.mem_range, Prod.exists,
    List.mem_zipIdx_iff_getElem?]
  constructor
  · rintro ⟨x, j, hx, i, hi, rfl⟩
    exact ⟨x, hx, hi⟩
  · rintro ⟨x, hx, hi⟩
    exact ⟨x, o.1, hx, o.2, hi, rfl⟩

theorem allFrgmnts_nodup (xs : List Sent) : (allFrgmnts xs).Nodup := by
  unfold allFrgmnts
  rw [List.nodup_flatMap]
  constructor
  · rintro ⟨x, j⟩ -
    exact List.nodup_range.map fun a b h => by simpa using h
  · rw [List.pairwise_iff_getElem]
    intro a b ha hb hab
    simp only [List.getElem_zipIdx, Nat.zero_add, Function.onFun, List.disjoint_left, List.mem_map,
      List.mem_range]
    rintro o ⟨i, -, rfl⟩ ⟨i', -, h⟩
    simp only [Prod.mk.injEq] at h
    omega

theorem mem_cameIn {os : List (Nat × Nat)} {j i : Nat} : i ∈ cameIn os j ↔ (j, i) ∈ os := by
  unfold cameIn
  simp only [List.mem_map, List.mem_filter, decide_eq_true_eq, Prod.exists]
  constructor
  · rintro ⟨j', i', ⟨h, rfl⟩, rfl⟩
    exact h
  · intro h
    exact ⟨j, i, ⟨h, rfl⟩, rfl⟩

theorem cameIn_append (os os' : List (Nat × Nat)) (j : Nat) :
    cameIn (os ++ os') j = cameIn os j ++ cameIn os' j := by
  simp [cameIn]

@[simp] theorem cameIn_cons_self (os : List (Nat × Nat)) (o : Nat × Nat) :
    cameIn (o :: os) o.1 = o.2 :: cameIn os o.1 := by
  simp [cameIn]

theorem cameIn_cons_ne (os : List (Nat × Nat)) {o : Nat × Nat} {j : Nat} (h : o.1 ≠ j) :
    cameIn (o :: os) j = cameIn os j := by
  simp [cameIn, h]

theorem cameIn_nodup {os : List (Nat × Nat)} (h : os.Nodup) (j : Nat) : (cameIn os j).Nodup := by
  unfold cameIn
  apply List.Nodup.map_on _ (h.filter _)
  rintro ⟨a, i⟩ ha ⟨b, i'⟩ hb hi
  simp only [List.mem_filter, decide_eq_true_eq] at ha hb
  simp_all

/-- A datagram whose first `n` fragments arrived has `n` arrivals at least. -/
theorem le_length_cameIn {os : List (Nat × Nat)} {j n : Nat} (h : ∀ i < n, (j, i) ∈ os) :
    n ≤ (cameIn os j).length := by
  have hsub : List.range n ⊆ cameIn os j := fun i hi => mem_cameIn.mpr (h i (List.mem_range.mp hi))
  simpa using (List.nodup_range.subperm hsub).length_le

/-- An order of arrival that never mixes packets: no fragment twice, none of a
later datagram before one of an earlier datagram with the same number, and
every datagram that a later one follows under its number came in full. -/
structure Orderly (xs : List Sent) (os : List (Nat × Nat)) : Prop where
  nodup : os.Nodup
  sent : ∀ o ∈ os, o ∈ allFrgmnts xs
  sorted : os.Pairwise fun a b => seqOf xs a.1 = seqOf xs b.1 → a.1 ≤ b.1
  whole : ∀ a ∈ os, ∀ b ∈ os, seqOf xs a.1 = seqOf xs b.1 → a.1 < b.1 →
    ∀ x, xs[a.1]? = some x → x.frgmnts ≤ (cameIn os a.1).length

/-- The abstract receiver after the arrivals `done`, with `todo` to come: a
packet under way has exactly the fragments that came of its datagram, and a
number with nothing under way has nothing of the datagrams to come. -/
structure Halfway (xs : List Sent) (done todo : List (Nat × Nat)) (σ : Slots) : Prop where
  under_way : ∀ s p, σ s = some p → ∃ j x, xs[j]? = some x ∧ x.seqNum = s.val ∧
    p.d = x.dg.bytes ∧ p.came = cameIn done j ∧ p.came ≠ [] ∧ p.came.length < x.frgmnts
  free : ∀ s : Fin MAX_PKTS, σ s = none → ∀ o ∈ todo, seqOf xs o.1 = some s.val →
    cameIn done o.1 = []

theorem halfway_start (xs : List Sent) (os : List (Nat × Nat)) :
    Halfway xs [] os fun _ => none := by
  refine ⟨fun s p h => ?_, fun s _ o _ _ => rfl⟩
  cases h

section step

variable {xs : List Sent} {done todo : List (Nat × Nat)} {o : Nat × Nat} {σ : Slots} {x : Sent}
  {s : Fin MAX_PKTS}

theorem seqOf_eq (hx : xs[o.1]? = some x) (hs : x.seqNum = s.val) :
    seqOf xs o.1 = some s.val := by
  simp [seqOf, hx, hs]

/-- What came under the number of the next fragment is of no later datagram. -/
theorem Orderly.done_le (hord : Orderly xs (done ++ o :: todo)) {o' : Nat × Nat} (h : o' ∈ done)
    (hseq : seqOf xs o'.1 = seqOf xs o.1) : o'.1 ≤ o.1 :=
  (List.pairwise_append.mp hord.sorted).2.2 o' h o List.mem_cons_self hseq

/-- What is still to come under its number is of no earlier one. -/
theorem Orderly.le_todo (hord : Orderly xs (done ++ o :: todo)) {o' : Nat × Nat} (h : o' ∈ todo)
    (hseq : seqOf xs o.1 = seqOf xs o'.1) : o.1 ≤ o'.1 :=
  (List.pairwise_cons.mp (List.pairwise_append.mp hord.sorted).2.1).1 o' h hseq

/-- The datagram under way is the one that the next fragment belongs to. -/
theorem halfway_cameOf (hord : Orderly xs (done ++ o :: todo)) (h : Halfway xs done (o :: todo) σ)
    (hx : xs[o.1]? = some x) (hs : x.seqNum = s.val) :
    cameOf σ s = cameIn done o.1 ∧ ∀ p, σ s = some p → p.d = x.dg.bytes := by
  have hseq := seqOf_eq hx hs
  unfold cameOf
  rcases ho : σ s with _ | p
  · refine ⟨(h.free s ho o (by simp) hseq).symm, fun p hp => ?_⟩
    cases hp
  · obtain ⟨j, y, hy, hys, hd, hcame, hne, hlt⟩ := h.under_way s p ho
    have hseqj : seqOf xs j = some s.val := by simp [seqOf, hy, hys]
    rw [hcame] at hne hlt
    obtain ⟨i, hi⟩ := List.exists_mem_of_ne_nil _ hne
    have hmem : (j, i) ∈ done := mem_cameIn.mp hi
    have hle : j ≤ o.1 := hord.done_le hmem (hseqj.trans hseq.symm)
    have hj : j = o.1 := by
      by_contra hjne
      -- The earlier datagram came in full, so a fragment of it is still to come.
      have hwhole := hord.whole (j, i) (by simp [hmem]) o (by simp) (hseqj.trans hseq.symm)
        (by simp only; omega) y hy
      simp only [cameIn_append, cameIn_cons_ne todo (fun he => hjne he.symm),
        List.length_append] at hwhole
      obtain ⟨i', hi'⟩ := List.exists_mem_of_length_pos (by omega : 0 < (cameIn todo j).length)
      have hafter := hord.le_todo (mem_cameIn.mp hi') (hseq.trans hseqj.symm)
      simp only at hafter
      omega
    subst hj
    rw [hx] at hy
    cases hy
    refine ⟨hcame, fun p' hp' => ?_⟩
    cases hp'
    exact hd

theorem length_cameIn_le {os : List (Nat × Nat)} (hn : os.Nodup) (hv : ∀ o ∈ os, o ∈ allFrgmnts xs)
    {j : Nat} (hx : xs[j]? = some x) : (cameIn os j).length ≤ x.frgmnts := by
  have hsub : cameIn os j ⊆ List.range x.frgmnts := by
    intro i hi
    obtain ⟨y, hy, hlt⟩ := mem_allFrgmnts.mp (hv _ (mem_cameIn.mp hi))
    rw [hx] at hy
    cases hy
    exact List.mem_range.mpr hlt
  simpa using ((cameIn_nodup hn j).subperm hsub).length_le

/-- After the last fragment of a datagram, none of it is still to come. -/
theorem Orderly.none_to_come (hord : Orderly xs (done ++ o :: todo)) (hx : xs[o.1]? = some x)
    (hall : x.frgmnts ≤ (cameIn done o.1).length + 1) : ∀ o' ∈ todo, o'.1 ≠ o.1 := by
  intro o' ho' he
  have hmem : o'.2 ∈ cameIn todo o.1 := mem_cameIn.mpr (by rw [← he]; exact ho')
  have hpos := List.length_pos_of_mem hmem
  have hle := length_cameIn_le hord.nodup hord.sent hx
  simp only [cameIn_append, cameIn_cons_self, List.length_append, List.length_cons] at hle
  omega

/-- One arrival, in an order that never mixes packets. -/
theorem halfway_step (hord : Orderly xs (done ++ o :: todo)) (h : Halfway xs done (o :: todo) σ)
    (hx : xs[o.1]? = some x) (hs : x.seqNum = s.val) :
    Halfway xs (done ++ [o]) todo (arrive σ s x.dg.bytes o.2) := by
  have hseq := seqOf_eq hx hs
  obtain ⟨hcame, -⟩ := halfway_cameOf hord h hx hs
  have hsnoc : ∀ j ≠ o.1, cameIn (done ++ [o]) j = cameIn done j := fun j hj => by
    rw [cameIn_append, cameIn_cons_ne [] (Ne.symm hj)]
    simp [cameIn]
  have hself : cameIn (done ++ [o]) o.1 = cameOf σ s ++ [o.2] := by
    rw [cameIn_append, cameIn_cons_self, hcame]
    rfl
  have hne_of : ∀ s' : Fin MAX_PKTS, s' ≠ s → ∀ j, seqOf xs j = some s'.val → j ≠ o.1 := by
    intro s' hs' j hj he
    subst he
    rw [hseq] at hj
    exact hs' (Fin.ext (Option.some.inj hj).symm)
  constructor
  · intro s' p hp
    by_cases hss : s' = s
    · subst hss
      unfold arrive at hp
      rw [Function.update_self] at hp
      split at hp
      · cases hp
      · rename_i hroom
        cases hp
        refine ⟨o.1, x, hx, hs, rfl, hself.symm, by simp, ?_⟩
        simp only [List.length_append, List.length_singleton, Sent.frgmnts]
        omega
    · unfold arrive at hp
      rw [Function.update_of_ne hss] at hp
      obtain ⟨j, y, hy, hys, hd, hc, hne, hlt⟩ := h.under_way s' p hp
      have hj := hne_of s' hss j (by simp [seqOf, hy, hys])
      exact ⟨j, y, hy, hys, hd, by rw [hc, hsnoc j hj], hne, hlt⟩
  · intro s' hfree o' ho' hseq'
    by_cases hss : s' = s
    · subst hss
      unfold arrive at hfree
      rw [Function.update_self] at hfree
      split at hfree
      · rename_i hall
        rw [hcame] at hall
        have ho := hord.none_to_come hx hall o' ho'
        have hafter := hord.le_todo ho' (hseq.trans hseq'.symm)
        rw [hsnoc _ ho]
        -- A fragment of a later datagram under the number cannot have come.
        by_contra hne
        obtain ⟨i, hi⟩ := List.exists_mem_of_ne_nil _ hne
        have hbefore := hord.done_le (mem_cameIn.mp hi) (hseq'.trans hseq.symm)
        simp only at hbefore
        omega
      · cases hfree
    · unfold arrive at hfree
      rw [Function.update_of_ne hss] at hfree
      rw [hsnoc _ (hne_of s' hss _ hseq')]
      exact h.free s' hfree o' (by simp [ho']) hseq'

end step

/-- Feeding an order of arrival that never mixes packets: each fragment but
the one that completes its datagram gives -1 and NULL, and that one gives the
datagram. -/
theorem feed_orderly {xs : List Sent} (hx : ∀ x ∈ xs, x.seqNum < MAX_PKTS)
    (done : List (Nat × Nat)) {todo : List (Nat × Nat)} {σ : Slots} {r : Receiver}
    {es : List (Nat × MsgBuf)}
    (hord : Orderly xs (done ++ todo)) (hh : Halfway xs done todo σ) (ht : Tracks r σ)
    (hes : List.Forall₂ (fun o e => MessageOf xs o e.2) todo es) :
    ∃ r' outs σ', feed r es = .ok (r', outs) ∧ Tracks r' σ' ∧ Halfway xs (done ++ todo) [] σ' ∧
      outs.length = todo.length ∧
      ∀ pre o post, todo = pre ++ o :: post → ∀ x, xs[o.1]? = some x →
        outs[pre.length]? = some (outcomeAt x ((cameIn (done ++ pre) o.1).length + 1)) := by
  induction hes generalizing done σ r with
  | nil =>
    refine ⟨r, [], σ, rfl, ht, by simpa using hh, rfl, fun pre o post h => ?_⟩
    simp at h
  | @cons o e todo es hmsg _ ih =>
    obtain ⟨now, msg⟩ := e
    obtain ⟨x, hxo, hm⟩ := hmsg
    have hlt := hx x (List.mem_of_getElem? hxo)
    obtain ⟨hcame, hsame⟩ := halfway_cameOf (s := ⟨x.seqNum, hlt⟩) hord hh hxo rfl
    have hnodup : (cameOf σ ⟨x.seqNum, hlt⟩ ++ [o.2]).Nodup := by
      have := cameIn_nodup hord.nodup o.1
      rw [cameIn_append, cameIn_cons_self, ← hcame] at this
      exact this.sublist (by simp)
    obtain ⟨r₁, hone, ht₁⟩ := feedOne_tracks now ht rfl hm hsame hnodup
    have hord' : Orderly xs ((done ++ [o]) ++ todo) := by simpa using hord
    obtain ⟨r', outs, σ', hfeed, ht', hh', hlen, houts⟩ :=
      ih _ hord' (halfway_step hord hh hxo rfl) ht₁
    refine ⟨r', _ :: outs, σ', by simp only [feed, hone, hfeed]; rfl, ht', by simpa using hh',
      by simp [hlen], ?_⟩
    intro pre o' post hsplit y hy
    cases pre with
    | nil =>
      simp only [List.nil_append, List.cons.injEq] at hsplit
      obtain ⟨rfl, rfl⟩ := hsplit
      rw [hxo] at hy
      cases hy
      simp [hcame]
    | cons o₁ pre =>
      simp only [List.cons_append, List.cons.injEq] at hsplit
      obtain ⟨rfl, hsplit⟩ := hsplit
      have := houts pre o' post hsplit y hy
      simpa using this

/-! ## The laws -/

theorem orderly_of_perm {xs : List Sent} {os : List (Nat × Nat)} (hp : os.Perm (allFrgmnts xs))
    (hs : os.Pairwise fun a b => seqOf xs a.1 = seqOf xs b.1 → a.1 ≤ b.1) : Orderly xs os := by
  refine ⟨hp.nodup_iff.mpr (allFrgmnts_nodup xs), fun o ho => hp.mem_iff.mp ho, hs, ?_⟩
  intro a _ b _ _ _ x hx
  apply le_length_cameIn
  intro i hi
  rw [hp.mem_iff, mem_allFrgmnts]
  exact ⟨x, hx, hi⟩

/-- All the fragments of a datagram that are not still to come have come. -/
theorem length_cameIn_of_perm {xs : List Sent} {os : List (Nat × Nat)} {x : Sent} {j : Nat}
    (hp : os.Perm (allFrgmnts xs)) (hx : xs[j]? = some x) : (cameIn os j).length = x.frgmnts := by
  have hn := hp.nodup_iff.mpr (allFrgmnts_nodup xs)
  have hperm : (cameIn os j).Perm (List.range x.frgmnts) := by
    rw [List.perm_ext_iff_of_nodup (cameIn_nodup hn j) List.nodup_range]
    intro i
    rw [mem_cameIn, hp.mem_iff, mem_allFrgmnts, List.mem_range]
    constructor
    · rintro ⟨y, hy, hi⟩
      rw [hx] at hy
      cases hy
      exact hi
    · intro hi
      exact ⟨x, hx, hi⟩
  simpa using hperm.length_eq

/-- The bytes of datagram `j`. -/
def datagramAt (xs : List Sent) (j : Nat) : Option (List UInt8) := xs[j]?.map (·.dg.bytes)

theorem filterMap_datagramAt (xs : List Sent) :
    (List.range xs.length).filterMap (datagramAt xs) = xs.map (·.dg.bytes) := by
  induction xs using List.reverseRecOn with
  | nil => rfl
  | append_singleton xs x ih =>
    have hold : ∀ j ∈ List.range xs.length, datagramAt (xs ++ [x]) j = datagramAt xs j := by
      intro j hj
      unfold datagramAt
      rw [List.getElem?_append_left (List.mem_range.mp hj)]
    rw [List.length_append, List.length_singleton, List.range_succ, List.filterMap_append,
      List.filterMap_congr hold, ih]
    simp [datagramAt]

/-- The outcome of an arrival `o` when the arrivals `post` are still to come. -/
def outcomeOf (xs : List Sent) (o : Nat × Nat) (post : List (Nat × Nat)) : Outcome :=
  if ∃ o' ∈ post, o'.1 = o.1 then ⟨-1, none⟩ else ⟨0, datagramAt xs o.1⟩

/-- The packets that come out, when each datagram comes out with the last of
its fragments. -/
theorem handles_eq {xs : List Sent} {os : List (Nat × Nat)} {outs : List Outcome}
    (hlen : outs.length = os.length)
    (houts : ∀ pre o post, os = pre ++ o :: post → outs[pre.length]? = some (outcomeOf xs o post)) :
    outs.filterMap (·.handle) = (os.map (·.1)).dedup.filterMap (datagramAt xs) := by
  induction os generalizing outs with
  | nil =>
    have : outs = [] := by simpa using hlen
    simp [this]
  | cons o os ih =>
    cases outs with
    | nil => simp at hlen
    | cons out outs =>
      have hrest := @ih outs (by simpa using hlen) fun pre o' post h => by
        have := houts (o :: pre) o' post (by simp [h])
        simpa using this
      have hhead : out = outcomeOf xs o os := by
        have := houts [] o os rfl
        simpa using this
      have hmem : (∃ o' ∈ os, o'.1 = o.1) ↔ o.1 ∈ os.map (·.1) := by simp
      rw [List.filterMap_cons, hrest, hhead, List.map_cons]
      unfold outcomeOf
      by_cases h : ∃ o' ∈ os, o'.1 = o.1
      · rw [if_pos h, List.dedup_cons_of_mem (hmem.mp h)]
      · rw [if_neg h, List.dedup_cons_of_notMem (hmem.not.mp h), List.filterMap_cons]

/-- When all fragments come, a datagram is complete at the arrival after which
none of it is still to come. -/
theorem outcomeAt_of_perm {xs : List Sent} {pre post : List (Nat × Nat)} {o : Nat × Nat} {x : Sent}
    (hp : (pre ++ o :: post).Perm (allFrgmnts xs)) (hx : xs[o.1]? = some x) :
    outcomeAt x ((cameIn pre o.1).length + 1) = outcomeOf xs o post := by
  have htotal := length_cameIn_of_perm hp hx
  rw [cameIn_append, cameIn_cons_self] at htotal
  simp only [List.length_append, List.length_cons] at htotal
  have hto_come : (∃ o' ∈ post, o'.1 = o.1) ↔ 0 < (cameIn post o.1).length := by
    rw [List.length_pos_iff_exists_mem]
    constructor
    · rintro ⟨o', ho', he⟩
      exact ⟨o'.2, mem_cameIn.mpr (by rw [← he]; exact ho')⟩
    · rintro ⟨i, hi⟩
      exact ⟨_, mem_cameIn.mp hi, rfl⟩
  unfold outcomeAt outcomeOf datagramAt
  rw [hx]
  by_cases h : ∃ o' ∈ post, o'.1 = o.1
  · have := hto_come.mp h
    rw [if_pos h, if_neg (by omega)]
  · have := hto_come.not.mp h
    rw [if_neg h, if_pos (by omega)]
    rfl

/-- When all fragments come, every datagram is among the arrivals. -/
theorem dedup_of_perm {xs : List Sent} {os : List (Nat × Nat)} (hp : os.Perm (allFrgmnts xs)) :
    (os.map (·.1)).dedup.Perm (List.range xs.length) := by
  rw [List.perm_ext_iff_of_nodup (List.nodup_dedup _) List.nodup_range]
  intro j
  rw [List.mem_dedup, List.mem_map, List.mem_range]
  constructor
  · rintro ⟨o, ho, rfl⟩
    obtain ⟨x, hx, -⟩ := mem_allFrgmnts.mp (hp.mem_iff.mp ho)
    exact (List.getElem?_eq_some_iff.mp hx).1
  · intro hj
    refine ⟨(j, 0), hp.mem_iff.mpr (mem_allFrgmnts.mpr ?_), rfl⟩
    exact ⟨xs[j], List.getElem?_eq_getElem hj, frgmntsOf_pos xs[j].dg.pos⟩

/-- Reassembly is correct for every order of arrival. `os` is any order of all
the fragments of the datagrams, with the fragments of a datagram before those
of a later one with the same number, and the table is any with the slots of
the lookup unused. Every fragment with another of its datagram still to come
gives -1 and NULL, the last one gives 0 and the datagram, each datagram comes
out once, and the slots are unused at the end. -/
theorem reassembly_is_correct_for_every_order (xs : List Sent) (os : List (Nat × Nat))
    (es : List (Nat × MsgBuf)) (r : Receiver) (hx : ∀ x ∈ xs, x.seqNum < MAX_PKTS)
    (hp : os.Perm (allFrgmnts xs))
    (hs : os.Pairwise fun a b => seqOf xs a.1 = seqOf xs b.1 → a.1 ≤ b.1)
    (hes : List.Forall₂ (fun o e => MessageOf xs o e.2) os es)
    (hr : ∀ s, (r.table.fragments (slot s)).used = false) :
    ∃ r' outs, feed r es = .ok (r', outs) ∧ outs.length = os.length ∧
      (∀ pre o post, os = pre ++ o :: post → outs[pre.length]? = some (outcomeOf xs o post)) ∧
      (outs.filterMap (·.handle)).Perm (xs.map (·.dg.bytes)) ∧
      ∀ s, (r'.table.fragments (slot s)).used = false := by
  have hord := orderly_of_perm hp hs
  obtain ⟨r', outs, σ', hfeed, ht', hh', hlen, houts⟩ :=
    feed_orderly hx [] hord (halfway_start xs os) (fun s => hr s) hes
  have hout : ∀ pre o post, os = pre ++ o :: post →
      outs[pre.length]? = some (outcomeOf xs o post) := by
    intro pre o post hsplit
    obtain ⟨x, hxo, -⟩ := mem_allFrgmnts.mp (hord.sent o (by simp [hsplit]))
    subst hsplit
    rw [houts pre o post rfl x hxo, List.nil_append, outcomeAt_of_perm hp hxo]
  refine ⟨r', outs, hfeed, hlen, hout, ?_, ?_⟩
  · rw [handles_eq hlen hout]
    rw [← filterMap_datagramAt]
    exact (dedup_of_perm hp).filterMap _
  · intro s
    have hs' := ht' s
    rcases ho : σ' s with _ | p
    · rw [ho] at hs'
      exact hs'
    · obtain ⟨j, x, hxj, -, -, hc, -, hlt⟩ := hh'.under_way s p ho
      rw [hc] at hlt
      simp only [List.nil_append, length_cameIn_of_perm hp hxj] at hlt
      omega

/-- A datagram of two fragments, 61 bytes `b`, read when the running number
was `txSeqNum`. -/
def twoFrgmnts (b : UInt8) (txSeqNum : Nat) : Sent :=
  { dg := ⟨List.replicate 61 b, by simp, by simp⟩, txSeqNum, pool := fun _ => .zero }

theorem messageOf_message {xs : List Sent} {x : Sent} {j i : Nat} (hx : xs[j]? = some x)
    (hi : i < x.frgmnts) : MessageOf xs (j, i) (x.message i) :=
  ⟨x, hx, x.messages_getElem? hi⟩

/-- Two packets under different numbers, their fragments swapped and
interleaved. -/
theorem two_interleaved_packets_come_out :
    ∃ r' outs, feed .init [(3, (twoFrgmnts 7 0).message 1), (3, (twoFrgmnts 9 1).message 1),
        (4, (twoFrgmnts 9 1).message 0), (9, (twoFrgmnts 7 0).message 0)] = .ok (r', outs) ∧
      (outs.filterMap (·.handle)).Perm [List.replicate 61 7, List.replicate 61 9] := by
  obtain ⟨r', outs, h, -, -, hp, -⟩ := reassembly_is_correct_for_every_order
    [twoFrgmnts 7 0, twoFrgmnts 9 1] [(0, 1), (1, 1), (1, 0), (0, 0)]
    [(3, (twoFrgmnts 7 0).message 1), (3, (twoFrgmnts 9 1).message 1),
      (4, (twoFrgmnts 9 1).message 0), (9, (twoFrgmnts 7 0).message 0)] .init
    (by decide) (by decide) (by decide)
    (.cons (messageOf_message rfl (by decide)) (.cons (messageOf_message rfl (by decide))
      (.cons (messageOf_message rfl (by decide)) (.cons (messageOf_message rfl (by decide)) .nil))))
    (fun _ => rfl)
  exact ⟨r', outs, h, hp⟩

theorem allFrgmnts_sorted (xs : List Sent) : (allFrgmnts xs).Pairwise fun a b => a.1 ≤ b.1 := by
  unfold allFrgmnts
  rw [List.pairwise_flatMap]
  constructor
  · rintro ⟨x, j⟩ -
    rw [List.pairwise_map]
    exact List.pairwise_of_forall fun _ _ => Nat.le_refl j
  · rw [List.pairwise_iff_getElem]
    intro a b ha hb hab
    simp only [List.getElem_zipIdx, Nat.zero_add, List.mem_map, List.mem_range]
    rintro o ⟨i, -, rfl⟩ o' ⟨i', -, rfl⟩
    exact Nat.le_of_lt hab

/-- A number is taken up again only when the datagram before under it came in
full or not at all. -/
def AllOrNothing (xs : List Sent) (os : List (Nat × Nat)) : Prop :=
  ∀ a ∈ os, ∀ b ∈ os, seqOf xs a.1 = seqOf xs b.1 → a.1 < b.1 →
    ∀ x, xs[a.1]? = some x → ∀ i < x.frgmnts, (a.1, i) ∈ os

/-- Fragments of different datagrams are not mixed in a run where no number
is taken up again while its slot is in use. `os` is what arrived of the
fragments, in the order they were sent. -/
theorem packets_are_not_mixed_when_numbers_are_free (xs : List Sent) (os : List (Nat × Nat))
    (es : List (Nat × MsgBuf)) (r : Receiver) (hx : ∀ x ∈ xs, x.seqNum < MAX_PKTS)
    (hsub : os.Sublist (allFrgmnts xs)) (hall : AllOrNothing xs os)
    (hes : List.Forall₂ (fun o e => MessageOf xs o e.2) os es)
    (hr : ∀ s, (r.table.fragments (slot s)).used = false) :
    ∃ r' outs, feed r es = .ok (r', outs) ∧ outs.length = os.length ∧
      ∀ out ∈ outs, ∀ b, out.handle = some b → ∃ x ∈ xs, b = x.dg.bytes := by
  have hord : Orderly xs os := by
    have hsorted := (allFrgmnts_sorted xs).sublist hsub
    refine ⟨hsub.nodup (allFrgmnts_nodup xs), fun o ho => hsub.subset ho,
      hsorted.imp (fun {a b} (h : a.1 ≤ b.1) (_ : seqOf xs a.1 = seqOf xs b.1) => h), ?_⟩
    intro a ha b hb hseq hlt x hxa
    apply le_length_cameIn
    exact hall a ha b hb hseq hlt x hxa
  obtain ⟨r', outs, σ', hfeed, -, -, hlen, houts⟩ :=
    feed_orderly hx [] hord (halfway_start xs os) (fun s => hr s) hes
  refine ⟨r', outs, hfeed, hlen, ?_⟩
  intro out hout b hb
  obtain ⟨n, hn, rfl⟩ := List.getElem_of_mem hout
  have hsplit : os = os.take n ++ os[n] :: os.drop (n + 1) := by
    rw [List.cons_getElem_drop_succ, List.take_append_drop]
  obtain ⟨x, hxo, -⟩ := mem_allFrgmnts.mp (hord.sent os[n] (List.getElem_mem _))
  have hat := houts _ _ _ hsplit x hxo
  rw [List.length_take, Nat.min_eq_left (by omega), List.getElem?_eq_getElem hn,
    Option.some.injEq] at hat
  rw [hat] at hb
  unfold outcomeAt at hb
  split at hb
  · cases hb
    exact ⟨x, List.mem_of_getElem? hxo, rfl⟩
  · cases hb

/-- Two datagrams under one number, the second one after the first came in full. -/
theorem a_number_is_taken_up_again :
    ∃ r' outs, feed .init [(3, (twoFrgmnts 7 0).message 0), (3, (twoFrgmnts 7 0).message 1),
        (4, (twoFrgmnts 9 16).message 0), (4, (twoFrgmnts 9 16).message 1)] = .ok (r', outs) ∧
      outs.length = 4 ∧ ∀ out ∈ outs, ∀ b, out.handle = some b →
        ∃ x ∈ [twoFrgmnts 7 0, twoFrgmnts 9 16], b = x.dg.bytes := by
  have hall : AllOrNothing [twoFrgmnts 7 0, twoFrgmnts 9 16] [(0, 0), (0, 1), (1, 0), (1, 1)] := by
    intro a _ b hb _ hlt x hx i hi
    have hle : b.1 ≤ 1 := (by decide : ∀ b ∈ [(0, 0), (0, 1), (1, 0), (1, 1)], b.1 ≤ 1) b hb
    have ha : a.1 = 0 := by omega
    rw [ha] at hx ⊢
    cases hx
    have htwo : (twoFrgmnts 7 0).frgmnts = 2 := by decide
    rw [htwo] at hi
    rcases i with _ | _ | i
    · simp
    · simp
    · omega
  exact packets_are_not_mixed_when_numbers_are_free [twoFrgmnts 7 0, twoFrgmnts 9 16]
    [(0, 0), (0, 1), (1, 0), (1, 1)] _ .init (by decide) (by decide) hall
    (.cons (messageOf_message rfl (by decide)) (.cons (messageOf_message rfl (by decide))
      (.cons (messageOf_message rfl (by decide)) (.cons (messageOf_message rfl (by decide)) .nil))))
    (fun _ => rfl)

/-- The first fragment of one datagram and the second of the next one under
its number: the packet that comes out is neither. -/
theorem a_packet_of_two_datagrams_comes_out :
    ([(0, 0), (1, 1)] : List (Nat × Nat)).Sublist
        (allFrgmnts [twoFrgmnts 7 0, twoFrgmnts 9 16]) ∧
      MessageOf [twoFrgmnts 7 0, twoFrgmnts 9 16] (0, 0) ((twoFrgmnts 7 0).message 0) ∧
      MessageOf [twoFrgmnts 7 0, twoFrgmnts 9 16] (1, 1) ((twoFrgmnts 9 16).message 1) ∧
      (feed .init [(3, (twoFrgmnts 7 0).message 0), (4, (twoFrgmnts 9 16).message 1)]).toOption.map
        (·.2) = some [⟨-1, none⟩, ⟨0, some (List.replicate 60 7 ++ [9])⟩] ∧
      ∀ x ∈ [twoFrgmnts 7 0, twoFrgmnts 9 16], List.replicate 60 7 ++ [9] ≠ x.dg.bytes :=
  ⟨by decide, messageOf_message rfl (by decide), messageOf_message rfl (by decide), by rfl,
    by decide⟩

end reassembly

end udp_service
