-- The fragments of one datagram at its slot, with any losses, repeats and
-- order: when the packet is taken for complete, and which fragments the gap test
-- asks for again.
import UdpService.ReassemblyLaws
import UdpService.Lib.Runs

open blocks

namespace udp_service

namespace arrivals

open hs_udp_fragments rudp_req hs_udp_service reassembly runs

/-- A message that `defragment` gets at a time. -/
structure Arrival where
  now : Nat
  msg : MsgBuf

def Arrival.frgmntIdx (a : Arrival) : Nat := a.msg.msgHeader.frgmntIdx.val

/-- What arrives is a fragment of the datagram. -/
def FragmentOf (s : Nat) (d : List UInt8) (a : Arrival) : Prop := IsFrgmnt a.msg s d a.frgmntIdx

/-! ## Up to the first completion -/

/-- The receiver, what arrived so far, and whether a packet was given out. -/
structure Gathering where
  rcv : Receiver
  came : List Nat
  done : Bool

/-- One call of `defragment`. There is none past the first that gives a packet
out. -/
def step (g : Gathering) (a : Arrival) : Option Gathering :=
  if g.done then none
  else
    match defragment a.now g.rcv a.msg with
    | .ok c =>
      some ⟨c.rcv, g.came ++ [a.frgmntIdx], c.ret = 0 ∧ c.outFragment.isSome⟩
    | .error _ => none

/-- The call gives a packet out exactly when no fragment is missing, and then the
slot holds the datagram. A fragment that is in the mask leaves the slot as it
was. -/
def Exact (s : Fin MAX_PKTS) (d : List UInt8) (g : Gathering) (a : Arrival) : Prop :=
  ∃ c, defragment a.now g.rcv a.msg = .ok c ∧
    let f := g.rcv.table.fragments (slot s)
    let f' := c.rcv.table.fragments (slot s)
    ((c.ret = 0 ∧ c.outFragment = some (slot s)) ↔
        ∀ k < frgmntsOf d.length, k ∈ g.came ++ [a.frgmntIdx]) ∧
      (c.ret = 0 ∧ c.outFragment = some (slot s) → f'.size = d.length ∧ payload f' = .ok d) ∧
      (f.used = true → f.frags_mask.getLsbD a.frgmntIdx = true →
        f'.size = f.size ∧ f'.accumulatedFrgmnts = f.accumulatedFrgmnts ∧
          f'.frags_mask = f.frags_mask ∧ f'.data = f.data)

/-- While no packet was given out, the slot has gathered what arrived, and that
is less than the whole. -/
def Ongoing (s : Nat) (d : List UInt8) (g : Gathering) (h : Handle) : Prop :=
  g.done = false → Before (g.rcv.table.fragments h) s d g.came ∧
    g.came.length < frgmntsOf d.length

section Completion

variable {s : Fin MAX_PKTS} {d : List UInt8} {g g' : Gathering} {a : Arrival}

theorem step_some (hs : step g a = some g') : g.done = false ∧
    ∃ c, defragment a.now g.rcv a.msg = .ok c ∧
      g' = ⟨c.rcv, g.came ++ [a.frgmntIdx], decide (c.ret = 0 ∧ c.outFragment.isSome)⟩ := by
  unfold step at hs
  split_ifs at hs with hdone
  refine ⟨by simpa using hdone, ?_⟩
  rcases hc : defragment a.now g.rcv a.msg with e | c
  · rw [hc] at hs
    cases hs
  · rw [hc] at hs
    exact ⟨c, rfl, (Option.some.inj hs).symm⟩

theorem Ongoing.stored (h : Ongoing s d g (slot s)) (hd : d.length ≤ NET_PACKET_SIZE)
    (ha : FragmentOf s d a) (hdone : g.done = false) :
    ∃ c, defragment a.now g.rcv a.msg = .ok c ∧
      Stored a.now g.rcv c (slot s) s d (g.came ++ [a.frgmntIdx]) :=
  defragment_frgmnt a.now hd ha (h hdone).1 (h hdone).2

theorem Ongoing.step (h : Ongoing s d g (slot s)) (hd : d.length ≤ NET_PACKET_SIZE)
    (ha : FragmentOf s d a) (hs : step g a = some g') : Ongoing s d g' (slot s) := by
  obtain ⟨hdone, c, hc, rfl⟩ := step_some hs
  obtain ⟨c', hc', hst⟩ := h.stored hd ha hdone
  obtain rfl : c = c' := Except.ok.inj (hc.symm.trans hc')
  intro hmore
  refine ⟨Or.inr hst.gathered, ?_⟩
  by_contra hall
  obtain ⟨hret, hout⟩ := hst.complete (Nat.le_of_not_lt hall)
  simp [hret, hout] at hmore

theorem nodup_snoc {came : List Nat} {i : Nat} (hn : came.Nodup) (hi : i ∉ came) :
    (came ++ [i]).Nodup := by
  rw [List.nodup_append_comm]
  exact List.nodup_cons.mpr ⟨hi, hn⟩

/-- As long as no fragment came twice, the count says whether all came. -/
theorem all_came_iff {came : List Nat} {n : Nat} (hn : came.Nodup) (hin : ∀ k ∈ came, k < n) :
    n ≤ came.length ↔ ∀ k < n, k ∈ came := by
  refine ⟨?_, ?_⟩
  · intro hall k hk
    exact (perm_range_of_nodup hin hn hall).mem_iff.mpr (List.mem_range.mpr hk)
  · intro hall
    have hsub : List.range n ⊆ came := fun k hk => hall k (List.mem_range.mp hk)
    simpa using (List.nodup_range.subperm hsub).length_le

/-- A call is exact exactly when its fragment did not come before. -/
theorem exact_iff (h : Ongoing s d g (slot s)) (hn : g.came.Nodup)
    (hd : d.length ≤ NET_PACKET_SIZE) (ha : FragmentOf s d a) (hdone : g.done = false) :
    Exact s d g a ↔ a.frgmntIdx ∉ g.came := by
  obtain ⟨c, hc, hst⟩ := h.stored hd ha hdone
  have hlen : (g.came ++ [a.frgmntIdx]).length = g.came.length + 1 := by simp
  have hroom := (h hdone).2
  refine ⟨?_, ?_⟩
  · rintro ⟨c', hc', -, -, hdup⟩ hmem
    obtain rfl : c = c' := Except.ok.inj (hc.symm.trans hc')
    rcases (h hdone).1 with ⟨-, hnil⟩ | hg
    · rw [hnil] at hmem
      cases hmem
    · have hbit : (g.rcv.table.fragments (slot s)).frags_mask.getLsbD a.frgmntIdx = true := by
        rw [hg.mask]
        exact decide_eq_true hmem
      have hcount := (hdup hg.used hbit).2.1
      rw [hst.gathered.accumulated, hg.accumulated, hlen] at hcount
      omega
  · intro hnew
    have hn' : (g.came ++ [a.frgmntIdx]).Nodup := nodup_snoc hn hnew
    have hall := all_came_iff hn' hst.gathered.inside
    have hcomplete : (c.ret = 0 ∧ c.outFragment = some (slot s)) ↔
        frgmntsOf d.length ≤ (g.came ++ [a.frgmntIdx]).length := by
      refine ⟨?_, hst.complete⟩
      rintro ⟨hret, -⟩
      by_contra hless
      have := (hst.incomplete (Nat.lt_of_not_le hless)).1
      omega
    refine ⟨c, hc, hcomplete.trans hall, ?_, ?_⟩
    · intro hout
      have hpay := payload_gathered hst.gathered hd hn' (hcomplete.mp hout)
      refine ⟨?_, hpay⟩
      unfold payload at hpay
      split_ifs at hpay with hsize
      rw [← Except.ok.inj hpay, Buffer.bytes_length]
    · intro hused hbit
      rcases (h hdone).1 with ⟨hfree, -⟩ | hg
      · rw [hfree] at hused
        cases hused
      · rw [hg.mask, decide_eq_true_eq] at hbit
        exact absurd hbit hnew

theorem guarded_new_iff {as : List Arrival} {u : Gathering} (hr : run step g as = some u)
    (hn : g.came.Nodup) : Guarded step (fun g a => a.frgmntIdx ∉ g.came) g as ↔
      (g.came ++ as.map Arrival.frgmntIdx).Nodup := by
  induction as generalizing g with
  | nil => simpa [Guarded] using hn
  | cons a as ih =>
    obtain ⟨g₁, ha, hr'⟩ := run_cons_eq_some.mp hr
    obtain ⟨-, c, -, rfl⟩ := step_some ha
    simp only [Guarded, ha, List.map_cons]
    rw [List.append_cons g.came a.frgmntIdx (as.map Arrival.frgmntIdx)]
    by_cases hnew : a.frgmntIdx ∈ g.came
    · refine ⟨fun h => absurd hnew h.1, fun h => ?_⟩
      have hboth := (List.nodup_append_comm.mp (List.nodup_append.mp h).1)
      exact absurd hnew (List.nodup_cons.mp hboth).1
    · rw [ih hr' (nodup_snoc hn hnew)]
      exact and_iff_right hnew

theorem Ongoing.start {r : Receiver} {dg : Datagram}
    (hfree : (r.table.fragments (slot s)).used = false) :
    Ongoing s dg.bytes ⟨r, [], false⟩ (slot s) :=
  fun _ => ⟨Or.inl ⟨hfree, rfl⟩, frgmntsOf_pos dg.pos⟩

theorem guarded_exact_iff {r : Receiver} {dg : Datagram} {as : List Arrival} {u : Gathering}
    (hfree : (r.table.fragments (slot s)).used = false)
    (has : ∀ a ∈ as, FragmentOf s dg.bytes a) (hr : run step ⟨r, [], false⟩ as = some u) :
    Guarded step (Exact s dg.bytes) ⟨r, [], false⟩ as ↔ (as.map Arrival.frgmntIdx).Nodup := by
  have hnew := guarded_new_iff hr List.nodup_nil
  rw [List.nil_append] at hnew
  rw [← hnew]
  apply guarded_congr (I := fun g => Ongoing s dg.bytes g (slot s) ∧ g.came.Nodup) ?_ ?_
    ⟨Ongoing.start hfree, List.nodup_nil⟩ hr
  · intro g a ha g' h hs
    exact exact_iff h.1 h.2 dg.le (has a ha) (step_some hs).1
  · intro g a ha g' h hok hs
    refine ⟨h.1.step dg.le (has a ha) hs, ?_⟩
    obtain ⟨-, c, -, rfl⟩ := step_some hs
    exact nodup_snoc h.2 hok

/-- Up to the first completion, from a free slot, every call is exact exactly when
no fragment arrives twice, and no arrival fails whatever came. -/
theorem completion_exact_iff_nodup {r : Receiver} {dg : Datagram} {as : List Arrival}
    {u : Gathering} (hfree : (r.table.fragments (slot s)).used = false)
    (has : ∀ a ∈ as, FragmentOf s dg.bytes a) (hr : run step ⟨r, [], false⟩ as = some u) :
    (Guarded step (Exact s dg.bytes) ⟨r, [], false⟩ as ↔ (as.map Arrival.frgmntIdx).Nodup) ∧
      (u.done = false → ∀ a, FragmentOf s dg.bytes a → (step u a).isSome) := by
  refine ⟨guarded_exact_iff hfree has hr, ?_⟩
  intro hdone a ha
  have hu : Ongoing s dg.bytes u (slot s) :=
    run_invariant_mem (I := fun g => Ongoing s dg.bytes g (slot s))
      (fun g a ha g' h hs => h.step dg.le (has a ha) hs) (Ongoing.start hfree) hr
  obtain ⟨c, hc, -⟩ := hu.stored dg.le ha hdone
  simp [step, hdone, hc]

end Completion

/-- Message `i` of a datagram that was sent. -/
def ofSent (x : Sent) (now i : Nat) : Arrival := ⟨now, x.message i⟩

theorem fragmentOf_ofSent {x : Sent} (now : Nat) {i : Nat} (hi : i < x.frgmnts) :
    FragmentOf x.seqNum x.dg.bytes (ofSent x now i) := by
  have h := Sent.messages_isFrgmnt (x.messages_getElem? hi)
  have hidx : (ofSent x now i).frgmntIdx = i := h.frgmntIdx
  unfold FragmentOf
  rw [hidx]
  exact h

/-- The first fragment of two, twice: the packet is taken for complete. -/
theorem one_fragment_twice_completes :
    ¬ ∀ (s : Fin MAX_PKTS) (dg : Datagram) (r : Receiver) (as : List Arrival) (u : Gathering),
      (r.table.fragments (slot s)).used = false → (∀ a ∈ as, FragmentOf s dg.bytes a) →
      run step ⟨r, [], false⟩ as = some u →
      Guarded step (Exact s dg.bytes) ⟨r, [], false⟩ as := by
  intro h
  have has : ∀ a ∈ [ofSent (twoFrgmnts 7 0) 3 0, ofSent (twoFrgmnts 7 0) 4 0],
      FragmentOf (1 : Fin MAX_PKTS) (twoFrgmnts 7 0).dg.bytes a :=
    List.forall_mem_cons.mpr ⟨fragmentOf_ofSent 3 (by decide),
      List.forall_mem_singleton.mpr (fragmentOf_ofSent 4 (by decide))⟩
  have hexact := h 1 (twoFrgmnts 7 0).dg .init _ _ rfl has rfl
  exact absurd ((guarded_exact_iff rfl has rfl).mp hexact) (by decide)

/-- The two fragments, the last one first. -/
theorem two_fragments_complete :
    ∃ u, run step ⟨.init, [], false⟩
        [ofSent (twoFrgmnts 7 0) 3 1, ofSent (twoFrgmnts 7 0) 4 0] = some u ∧ u.done = true ∧
      (Guarded step (Exact 1 (twoFrgmnts 7 0).dg.bytes) ⟨.init, [], false⟩
          [ofSent (twoFrgmnts 7 0) 3 1, ofSent (twoFrgmnts 7 0) 4 0] ↔ [1, 0].Nodup) :=
  ⟨_, rfl, rfl, (completion_exact_iff_nodup rfl (List.forall_mem_cons.mpr
    ⟨fragmentOf_ofSent 3 (by decide),
      List.forall_mem_singleton.mpr (fragmentOf_ofSent 4 (by decide))⟩) rfl).1⟩

/-! ## The requests of the gap test -/

/-- The receiver, what arrived since the slot was acquired, and the fragments that
were asked for since then. -/
structure Watched where
  rcv : Receiver
  came : List Nat
  asked : List Nat

/-- The fragments of a packet that the requests ask for. -/
def asksFor (s : Nat) (reqs : List RUdpFragmntReq) : List Nat :=
  (reqs.filter (·.seqNum = s)).map (·.fragmntLost)

/-- One call of `defragment`, with the release of a complete packet. -/
def gapStep (s : Fin MAX_PKTS) (g : Watched) (a : Arrival) : Option Watched :=
  match defragment a.now g.rcv a.msg with
  | .ok c =>
    if c.outFragment.isSome then some ⟨released c, [], []⟩
    else some ⟨released c, g.came ++ [a.frgmntIdx], g.asked ++ asksFor s c.reqs⟩
  | .error _ => none

/-- The call asks only for fragments that are not in the mask, and at its end all
those below the one that arrived have been asked for. -/
def GapsExact (s : Fin MAX_PKTS) (g : Watched) (a : Arrival) : Prop :=
  ∃ c, defragment a.now g.rcv a.msg = .ok c ∧
    let mask := (c.rcv.table.fragments (slot s)).frags_mask
    (∀ k ∈ asksFor s c.reqs, mask.getLsbD k = false) ∧
      ∀ k < a.frgmntIdx, mask.getLsbD k = false → k ∈ g.asked ++ asksFor s c.reqs

/-- What the gap test asks for when fragment `i` arrives after `came`. -/
def gapOf (came : List Nat) (i : Nat) : List Nat :=
  if i > came.getLastD 0 + 1 then [i - 1] else []

/-- For a slot that was just acquired no end-of-packet request goes out. -/
theorem asksFor_opened (t : UdpFragmentsTable) (s : Fin MAX_PKTS) (p : Nat) :
    asksFor s (rrudp_complete_last_pkt (t.acquired (slot s) TERMINAL_ID) p) = [] := by
  unfold asksFor
  rw [List.map_eq_nil_iff, List.filter_eq_nil_iff]
  intro q hq hseq
  have hp : p = s := (complete_last_pkt_seqNum hq).symm.trans (by simpa using hseq)
  subst hp
  unfold rrudp_complete_last_pkt at hq
  rw [find_terminal_slot] at hq
  simp [UdpFragment.opened] at hq

theorem asksFor_append (s : Nat) (xs ys : List RUdpFragmntReq) :
    asksFor s (xs ++ ys) = asksFor s xs ++ asksFor s ys := by
  simp [asksFor]

theorem asksFor_gapRequests {f : UdpFragment} {came : List Nat} (msg : MsgBuf)
    (h : f.frgmntIdx = came.getLastD 0) :
    asksFor msg.msgHeader.seqNum (gapRequests f msg.msgHeader) =
      gapOf came msg.msgHeader.frgmntIdx := by
  unfold gapRequests gapOf
  rw [h]
  split_ifs
  · simp [asksFor, rrudp_ask_retransmit]
  · rfl

/-- A call for the packet of the slot asks nothing at its end for that packet. -/
theorem asksFor_endRequests (r : Receiver) {msg : MsgBuf} {s : Fin MAX_PKTS}
    (hm : retransmit_msg msg = false) : asksFor s (endRequests (located r msg s) s) = [] := by
  rw [endRequests_located r s hm]
  split_ifs
  · rfl
  · exact asksFor_opened _ _ _

/-- What a call asks for on a fragment of the packet: the gap test, on the fragment
that came last. -/
theorem asksFor_call {r : Receiver} {s : Fin MAX_PKTS} {d : List UInt8} {a : Arrival}
    {came : List Nat} {c : Collated} (hd : d.length ≤ NET_PACKET_SIZE) (ha : FragmentOf s d a)
    (hb : Before (r.table.fragments (slot s)) s d came) (hc : defragment a.now r a.msg = .ok c) :
    asksFor s c.reqs = gapOf came a.frgmntIdx := by
  have hgap := asksFor_gapRequests a.msg (hb.located a.msg).last
  rw [defragment_eq a.now ha.before_end ha.seqNum hb.terminalId,
    collate_eq _ _ _ _ (ha.fits hd)] at hc
  cases hc
  rw [ha.seqNum] at hgap
  simp only [asksFor_append, ha.seqNum]
  rw [asksFor_endRequests r ha.not_request, hgap]
  rfl

/-- The highest fragment that came. -/
def highest (came : List Nat) : Nat := came.foldl max 0

/-- The gap test asks for what it should when fragment `i` arrives after `came`:
the first to come is fragment 0. A later one is not above the highest, and then
the one before it did not come unless the gap test stays silent, or it follows
the highest, which came last, or it leaves out one fragment above the highest. -/
def WithinReach (came : List Nat) (i : Nat) : Prop :=
  if came = [] then i = 0
  else
    (i ≤ highest came ∧ (i ≤ came.getLastD 0 + 1 ∨ i - 1 ∉ came)) ∨
      (i = highest came + 1 ∧ came.getLastD 0 = highest came) ∨ i = highest came + 2

instance (came : List Nat) (i : Nat) : Decidable (WithinReach came i) := by
  unfold WithinReach
  infer_instance

theorem highest_snoc (came : List Nat) (i : Nat) :
    highest (came ++ [i]) = max (highest came) i := by
  simp [highest]

theorem le_highest {came : List Nat} {k : Nat} (h : k ∈ came) : k ≤ highest came := by
  induction came using List.reverseRecOn with
  | nil => cases h
  | append_singleton came i ih =>
    rw [highest_snoc]
    rcases List.mem_append.mp h with h | h
    · exact Nat.le_trans (ih h) (Nat.le_max_left _ _)
    · rw [List.mem_singleton.mp h]
      exact Nat.le_max_right _ _

theorem highest_mem {came : List Nat} (h : came ≠ []) : highest came ∈ came := by
  induction came using List.reverseRecOn with
  | nil => exact absurd rfl h
  | append_singleton came i ih =>
    rw [highest_snoc]
    rcases Nat.le_total i (highest came) with hle | hle
    · rw [Nat.max_eq_left hle]
      by_cases hnil : came = []
      · have hi : i = 0 := by simpa [hnil, highest] using hle
        simp [hnil, highest, hi]
      · exact List.mem_append_left _ (ih hnil)
    · rw [Nat.max_eq_right hle]
      simp

theorem getLastD_mem {came : List Nat} (h : came ≠ []) : came.getLastD 0 ∈ came := by
  rw [List.getLastD_eq_getLast?, List.getLast?_eq_some_getLast h]
  exact List.getLast_mem h

/-- Below the highest fragment that came, what is missing was asked for, and
nothing else was. -/
structure Covered (came asked : List Nat) : Prop where
  nil : came = [] → asked = []
  below : ∀ k ∈ asked, k < highest came
  missing : ∀ k < highest came, k ∉ came → k ∈ asked

theorem Covered.start : Covered [] [] := ⟨fun _ => rfl, nofun, nofun⟩

theorem mem_gapOf {came : List Nat} {i k : Nat} :
    k ∈ gapOf came i ↔ came.getLastD 0 + 1 < i ∧ k + 1 = i := by
  unfold gapOf
  split_ifs with h
  · rw [List.mem_singleton]
    omega
  · simp only [List.not_mem_nil, false_iff]
    omega

/-- The gap test asks for nothing that came when it is silent, or when the fragment
before the one that arrives did not come. -/
theorem gapOf_new_iff (came : List Nat) (i : Nat) :
    (∀ k ∈ gapOf came i, k ∉ came ++ [i]) ↔ i ≤ came.getLastD 0 + 1 ∨ i - 1 ∉ came := by
  simp only [mem_gapOf, List.mem_append, List.mem_singleton, not_or]
  refine ⟨?_, ?_⟩
  · intro hnew
    by_cases hsilent : i ≤ came.getLastD 0 + 1
    · exact Or.inl hsilent
    · exact Or.inr (hnew (i - 1) (by omega)).1
  · rintro (hsilent | hbefore) k ⟨hjump, hk⟩
    · omega
    · obtain rfl : k = i - 1 := by omega
      exact ⟨hbefore, by omega⟩

/-- Everything missing has been asked for exactly when no more than one fragment
above the highest is left out. -/
theorem Covered.missing_iff {came asked : List Nat} (h : Covered came asked) (hnil : came ≠ [])
    (i : Nat) : (∀ k < i, k ∉ came ++ [i] → k ∈ asked ++ gapOf came i) ↔
      i ≤ highest came + 2 := by
  have hlast := le_highest (getLastD_mem hnil)
  simp only [List.mem_append, List.mem_singleton, not_or, mem_gapOf]
  refine ⟨?_, ?_⟩
  · intro hall
    by_contra hfar
    have hover : highest came + 1 ∉ came := fun hm => by
      have := le_highest hm
      omega
    rcases hall (highest came + 1) (by omega) ⟨hover, by omega⟩ with hold | hgap
    · have := h.below _ hold
      omega
    · omega
  · rintro hreach k hk ⟨hkc, -⟩
    by_cases hlow : k < highest came
    · exact Or.inl (h.missing k hlow hkc)
    · have hne : k ≠ highest came := fun he => hkc (he ▸ highest_mem hnil)
      right
      omega

theorem withinReach_iff {came : List Nat} (hnil : came ≠ []) (i : Nat) :
    WithinReach came i ↔
      (i ≤ came.getLastD 0 + 1 ∨ i - 1 ∉ came) ∧ i ≤ highest came + 2 := by
  have hlast := le_highest (getLastD_mem hnil)
  have htop := highest_mem hnil
  unfold WithinReach
  rw [if_neg hnil]
  refine ⟨?_, ?_⟩
  · rintro (⟨hle, hnew⟩ | ⟨hnext, hsame⟩ | hskip)
    · exact ⟨hnew, by omega⟩
    · exact ⟨Or.inl (by omega), by omega⟩
    · refine ⟨Or.inr ?_, by omega⟩
      intro hm
      have := le_highest hm
      omega
  · rintro ⟨hnew, hreach⟩
    by_cases hnext : i = highest came + 1
    · refine Or.inr (Or.inl ⟨hnext, ?_⟩)
      rcases hnew with hsilent | hbefore
      · omega
      · rw [hnext, Nat.add_sub_cancel] at hbefore
        exact absurd htop hbefore
    · by_cases hle : i ≤ highest came
      · exact Or.inl ⟨hle, hnew⟩
      · exact Or.inr (Or.inr (by omega))

/-- The first fragment to come leaves nothing missing when it is fragment 0. -/
theorem gapOf_first_iff (i : Nat) : ((∀ k ∈ gapOf [] i, k ∉ [] ++ [i]) ∧
    ∀ k < i, k ∉ [] ++ [i] → k ∈ [] ++ gapOf [] i) ↔ i = 0 := by
  simp only [List.nil_append, List.mem_singleton, mem_gapOf, List.getLastD_nil]
  refine ⟨?_, ?_⟩
  · rintro ⟨-, hall⟩
    by_contra hi
    have := hall 0 (by omega) (by omega)
    omega
  · rintro rfl
    exact ⟨fun k hk => by omega, fun k hk => by omega⟩

/-- What the gap test does at the next arrival is right exactly within reach. -/
theorem Covered.gapOf_iff {came asked : List Nat} (h : Covered came asked) (i : Nat) :
    ((∀ k ∈ gapOf came i, k ∉ came ++ [i]) ∧
        ∀ k < i, k ∉ came ++ [i] → k ∈ asked ++ gapOf came i) ↔ WithinReach came i := by
  by_cases hnil : came = []
  · have hasked := h.nil hnil
    subst hnil hasked
    rw [gapOf_first_iff]
    exact Iff.rfl
  · rw [gapOf_new_iff, h.missing_iff hnil, withinReach_iff hnil]

/-- Within reach, the next arrival leaves everything below the highest covered. -/
theorem Covered.snoc {came asked : List Nat} {i : Nat} (h : Covered came asked)
    (hreach : WithinReach came i) : Covered (came ++ [i]) (asked ++ gapOf came i) := by
  obtain ⟨-, hall⟩ := (h.gapOf_iff i).mpr hreach
  refine ⟨by simp, ?_, ?_⟩
  · intro k hk
    rw [highest_snoc]
    rcases List.mem_append.mp hk with hold | hgap
    · have := h.below k hold
      omega
    · have := mem_gapOf.mp hgap
      omega
  · intro k hk hnew
    rw [highest_snoc] at hk
    by_cases hki : k < i
    · exact hall k hki hnew
    · apply List.mem_append_left
      apply h.missing k (by omega)
      exact fun hm => hnew (List.mem_append_left _ hm)

/-- What arrived since the slot was acquired: it is released with every `n`-th
arrival, whether that is a repeat or not. -/
def sinceAcquired (n : Nat) (as : List Arrival) : List Nat :=
  (as.drop (as.length / n * n)).map Arrival.frgmntIdx

theorem sinceAcquired_length (n : Nat) (as : List Arrival) :
    (sinceAcquired n as).length = as.length % n := by
  have hsplit := Nat.div_add_mod' as.length n
  rw [sinceAcquired, List.length_map, List.length_drop]
  omega

theorem sinceAcquired_snoc {n : Nat} (hn : 0 < n) (as : List Arrival) (a : Arrival) :
    sinceAcquired n (as ++ [a]) =
      if n ≤ (sinceAcquired n as).length + 1 then [] else sinceAcquired n as ++ [a.frgmntIdx] := by
  have hsplit := Nat.div_add_mod as.length n
  have hlt := Nat.mod_lt as.length hn
  have hlen : (as ++ [a]).length = n * (as.length / n) + (as.length % n + 1) := by
    rw [List.length_append, List.length_singleton]
    omega
  rw [sinceAcquired_length]
  unfold sinceAcquired
  rw [hlen, Nat.mul_add_div hn, Nat.add_mul]
  split_ifs with hall
  · have hend : as.length % n + 1 = n := by omega
    rw [hend, Nat.div_self hn, Nat.one_mul, Nat.mul_comm, List.drop_of_length_le]
    · rfl
    · rw [hlen, hend, Nat.mul_comm]
  · have hmore : (as.length % n + 1) / n = 0 := Nat.div_eq_of_lt (by omega)
    rw [hmore, Nat.zero_mul, Nat.add_zero,
      List.drop_append_of_le_length (Nat.div_mul_le_self _ _), List.map_append]
    rfl

section Gaps

variable {s : Fin MAX_PKTS} {d : List UInt8} {g g' : Watched} {a : Arrival}

/-- The slot is free, with nothing come, or has gathered what came, and that is
less than the whole. -/
def Sees (s : Fin MAX_PKTS) (d : List UInt8) (g : Watched) : Prop :=
  Before (g.rcv.table.fragments (slot s)) s d g.came ∧ g.came.length < frgmntsOf d.length

/-- The history after fragment `i`, with the slots `r`. -/
def Watched.next (n : Nat) (g : Watched) (r : Receiver) (i : Nat) : Watched :=
  if n ≤ g.came.length + 1 then ⟨r, [], []⟩ else ⟨r, g.came ++ [i], g.asked ++ gapOf g.came i⟩

/-- One call, on a fragment of the packet. -/
theorem Sees.call (h : Sees s d g) (hd : d.length ≤ NET_PACKET_SIZE) (ha : FragmentOf s d a) :
    ∃ c, defragment a.now g.rcv a.msg = .ok c ∧
      (∀ k, (c.rcv.table.fragments (slot s)).frags_mask.getLsbD k =
        decide (k ∈ g.came ++ [a.frgmntIdx])) ∧
      asksFor s c.reqs = gapOf g.came a.frgmntIdx ∧
      gapStep s g a = some (g.next (frgmntsOf d.length) (released c) a.frgmntIdx) ∧
      Sees s d (g.next (frgmntsOf d.length) (released c) a.frgmntIdx) := by
  obtain ⟨c, hc, hst⟩ := defragment_frgmnt a.now hd ha h.1 h.2
  have hasks := asksFor_call hd ha h.1 hc
  have hlen : (g.came ++ [a.frgmntIdx]).length = g.came.length + 1 := by simp
  refine ⟨c, hc, hst.gathered.mask, hasks, ?_⟩
  unfold gapStep Watched.next
  simp only [hc, hasks]
  by_cases hall : frgmntsOf d.length ≤ g.came.length + 1
  · obtain ⟨-, hout⟩ := hst.complete (by rw [hlen]; exact hall)
    have hfree : ((released c).table.fragments (slot s)).used = false := by
      rw [released_fragments, if_pos hout]
      rfl
    simp only [hout, if_pos hall, Option.isSome_some, if_true]
    exact ⟨trivial, Or.inl ⟨hfree, rfl⟩, Nat.lt_of_le_of_lt (Nat.zero_le _) h.2⟩
  · obtain ⟨-, hout⟩ := hst.incomplete (by rw [hlen]; omega)
    have hsame : (released c).table.fragments (slot s) = c.rcv.table.fragments (slot s) := by
      rw [released_fragments, hout, if_neg (by simp)]
    simp only [hout, if_neg hall, Option.isSome_none, Bool.false_eq_true, if_false]
    refine ⟨trivial, Or.inr (by rw [hsame]; exact hst.gathered), ?_⟩
    rw [hlen]
    omega

theorem Sees.start {r : Receiver} {dg : Datagram}
    (hfree : (r.table.fragments (slot s)).used = false) : Sees s dg.bytes ⟨r, [], []⟩ :=
  ⟨Or.inl ⟨hfree, rfl⟩, frgmntsOf_pos dg.pos⟩

theorem Sees.gapsExact_iff (h : Sees s d g) (hcov : Covered g.came g.asked)
    (hd : d.length ≤ NET_PACKET_SIZE) (ha : FragmentOf s d a) :
    GapsExact s g a ↔ WithinReach g.came a.frgmntIdx := by
  obtain ⟨c, hc, hmask, hasks, -⟩ := h.call hd ha
  rw [← hcov.gapOf_iff]
  unfold GapsExact
  rw [hc]
  simp only [Except.ok.injEq, exists_eq_left', hasks, hmask, decide_eq_false_iff_not]

theorem Covered.next {n i : Nat} (h : Covered g.came g.asked) (hreach : WithinReach g.came i)
    (r : Receiver) : Covered (g.next n r i).came (g.next n r i).asked := by
  unfold Watched.next
  split_ifs
  · exact .start
  · exact h.snoc hreach

/-- A run remembers what came since the slot was acquired. -/
theorem came_eq {r : Receiver} {dg : Datagram} {as : List Arrival}
    (hfree : (r.table.fragments (slot s)).used = false)
    (has : ∀ a ∈ as, FragmentOf s dg.bytes a) (hr : run (gapStep s) ⟨r, [], []⟩ as = some g) :
    Sees s dg.bytes g ∧ g.came = sinceAcquired (frgmntsOf dg.bytes.length) as := by
  induction as using List.reverseRecOn generalizing g with
  | nil =>
    cases hr
    exact ⟨.start hfree, by simp [sinceAcquired]⟩
  | append_singleton as a ih =>
    rw [run_append] at hr
    obtain ⟨v, hv, hr⟩ := Option.bind_eq_some_iff.mp hr
    obtain ⟨g', hs, hg'⟩ := run_cons_eq_some.mp hr
    cases hg'
    obtain ⟨hsees, hcame⟩ := ih (fun a ha => has a (List.mem_append_left _ ha)) hv
    obtain ⟨c, -, -, -, hs', hnext⟩ := hsees.call dg.le (has a (by simp))
    rw [hs] at hs'
    cases hs'
    refine ⟨hnext, ?_⟩
    rw [sinceAcquired_snoc (frgmntsOf_pos dg.pos), ← hcame]
    unfold Watched.next
    split_ifs <;> rfl

/-- From a free slot no call fails, and every call of a run asks for what it should
exactly when each fragment is within reach of those that came before it since the
slot was acquired. -/
theorem gaps_exact_iff_within_reach {r : Receiver} {dg : Datagram} {as : List Arrival}
    (hfree : (r.table.fragments (slot s)).used = false)
    (has : ∀ a ∈ as, FragmentOf s dg.bytes a) :
    ∃ u, run (gapStep s) ⟨r, [], []⟩ as = some u ∧
      (Guarded (gapStep s) (GapsExact s) ⟨r, [], []⟩ as ↔
        ∀ m a, as[m]? = some a →
          WithinReach (sinceAcquired (frgmntsOf dg.bytes.length) (as.take m)) a.frgmntIdx) := by
  have hkeep : ∀ g, ∀ a ∈ as, Sees s dg.bytes g →
      ∃ g', gapStep s g a = some g' ∧ Sees s dg.bytes g' := by
    intro g a ha h
    obtain ⟨c, -, -, -, hs, hnext⟩ := h.call dg.le (has a ha)
    exact ⟨_, hs, hnext⟩
  obtain ⟨u, hu, -⟩ := run_total hkeep (.start hfree)
  refine ⟨u, hu, ?_⟩
  have hcongr : Guarded (gapStep s) (GapsExact s) ⟨r, [], []⟩ as ↔
      Guarded (gapStep s) (fun g a => WithinReach g.came a.frgmntIdx) ⟨r, [], []⟩ as := by
    apply guarded_congr (I := fun g => Sees s dg.bytes g ∧ Covered g.came g.asked) ?_ ?_
      ⟨.start hfree, .start⟩ hu
    · intro g a ha g' h _
      exact h.1.gapsExact_iff h.2 dg.le (has a ha)
    · intro g a ha g' h hok hs
      obtain ⟨c, -, -, -, hs', hnext⟩ := h.1.call dg.le (has a ha)
      rw [hs'] at hs
      cases hs
      exact ⟨hnext, h.2.next hok _⟩
  rw [hcongr]
  have hpast : ∀ m v, run (gapStep s) ⟨r, [], []⟩ (as.take m) = some v →
      v.came = sinceAcquired (frgmntsOf dg.bytes.length) (as.take m) := fun m v hv =>
    (came_eq hfree (fun a ha => has a (List.mem_of_mem_take ha)) hv).2
  exact guarded_iff_history (P := fun came a => WithinReach came a.frgmntIdx) hpast hu

end Gaps

/-- The second fragment of two comes first: the first is missing, and nothing asks
for it. -/
theorem lost_first_fragment_not_asked_for :
    ¬ ∀ (s : Fin MAX_PKTS) (dg : Datagram) (r : Receiver) (as : List Arrival) (u : Watched),
      (r.table.fragments (slot s)).used = false → (∀ a ∈ as, FragmentOf s dg.bytes a) →
      run (gapStep s) ⟨r, [], []⟩ as = some u →
      Guarded (gapStep s) (GapsExact s) ⟨r, [], []⟩ as := by
  intro h
  have ha : FragmentOf (1 : Fin MAX_PKTS) (twoFrgmnts 7 0).dg.bytes (ofSent (twoFrgmnts 7 0) 3 1) :=
    fragmentOf_ofSent 3 (by decide)
  have hexact := h 1 (twoFrgmnts 7 0).dg .init _ _ rfl (List.forall_mem_singleton.mpr ha) rfl
  have hsees : Sees 1 (twoFrgmnts 7 0).dg.bytes ⟨.init, [], []⟩ := .start rfl
  exact absurd ((hsees.gapsExact_iff .start (twoFrgmnts 7 0).dg.le ha).mp hexact.1) (by decide)

/-- Two fragments in order complete the packet, and the second one comes again: it
finds the slot free, and the first is missing. -/
theorem a_repeat_finds_the_slot_free :
    ∃ u, run (gapStep 1) ⟨.init, [], []⟩ [ofSent (twoFrgmnts 7 0) 3 0,
        ofSent (twoFrgmnts 7 0) 4 1, ofSent (twoFrgmnts 7 0) 5 1] = some u ∧
      ¬ Guarded (gapStep 1) (GapsExact 1) ⟨.init, [], []⟩ [ofSent (twoFrgmnts 7 0) 3 0,
        ofSent (twoFrgmnts 7 0) 4 1, ofSent (twoFrgmnts 7 0) 5 1] := by
  obtain ⟨u, hu, hiff⟩ := @gaps_exact_iff_within_reach 1 .init (twoFrgmnts 7 0).dg
    [ofSent (twoFrgmnts 7 0) 3 0, ofSent (twoFrgmnts 7 0) 4 1, ofSent (twoFrgmnts 7 0) 5 1] rfl
    (List.forall_mem_cons.mpr ⟨fragmentOf_ofSent 3 (by decide), List.forall_mem_cons.mpr
      ⟨fragmentOf_ofSent 4 (by decide),
        List.forall_mem_singleton.mpr (fragmentOf_ofSent 5 (by decide))⟩⟩)
  refine ⟨u, hu, fun hexact => ?_⟩
  have hreach := hiff.mp hexact 2 _ rfl
  exact absurd hreach (by decide)

end arrivals

end udp_service
