-- The history of the sender over whole runs of its three operations (r_udp.c), on
-- any number of buffers. Its `next` fields make up a queue: a push appends, a pass
-- takes off the front. A lookup moves a single deadline, so the queue need not stay
-- in the order of the deadlines.
import UdpService.Lib.Runs
import UdpService.Lib.Deadlines
import UdpService.RUdp

open chain runs deadlines

namespace udp_service

namespace history_runs

open r_udp

/-! ## The operations -/

/-- `hist_find_frag`: the search, and the store into the buffer that it found. -/
def hist_find_frag (fuel : Nat) (h : Hist) (fragLost seqNum : Nat) : Option (Hist × Option Ptr) :=
  (search (nextOf h) (isFrag h fragLost seqNum) fuel h.ListHead).map fun
    | some n => (linger h n, some n)
    | none => (h, none)

/-- `free_history`. `clock` is what `gettimeofday` gives, reading after reading. -/
def free_history : (clock : Nat → Nat) → Nat → Hist → List Ptr → Option (Hist × List Ptr)
  | clock, fuel, h, fifo =>
    match hist_peek_timed_head (clock 0) h with
    | none => some (h, fifo)
    | some head =>
      match fuel with
      | 0 => none
      | fuel + 1 =>
        free_history (fun i => clock (i + 1)) fuel (hist_pop_frag h head fifo).1
          (hist_pop_frag h head fifo).2

/-- The history, and what a run remembers: the last reading of the clock, and when
each buffer was pushed and how often it was found since. -/
structure History where
  hist : Hist
  IotThrInFifo : List Ptr
  clock : Nat
  pushedAt : Ptr → Nat
  lookups : Ptr → Nat

/-- A call. Between the calls, whoever has a buffer writes what it likes into it. -/
inductive Call
  | fill (p : Ptr) (b : MsgBuf)
  | push (now : Nat) (p : Ptr)
  | find (fragLost seqNum : Nat)
  | free (clock : Nat → Nat)

/-- The globals are NULL at the start. The buffers hold anything. -/
def init (heap : Ptr → MsgBuf) : History :=
  { hist := { heap, ListHead := none, ListTail := none }
    IotThrInFifo := [], clock := 0, pushedAt := fun _ => 0, lookups := fun _ => 0 }

/-- One call, or `none` in a fault or without fuel. -/
def step (fuel : Nat) (s : History) : Call → Option History
  | .fill p b => some { s with hist := s.hist.write p fun _ => b }
  | .push now p =>
    match hist_push_frag now s.hist p with
    | .ok h =>
      some { s with
        hist := h, clock := now
        pushedAt := Function.update s.pushedAt p now, lookups := Function.update s.lookups p 0 }
    | .error _ => none
  | .find fragLost seqNum =>
    (hist_find_frag fuel s.hist fragLost seqNum).map fun (h, found) =>
      { s with
        hist := h
        lookups := match found with
          | some n => Function.update s.lookups n (s.lookups n + 1)
          | none => s.lookups }
  | .free clock =>
    (free_history clock fuel s.hist s.IotThrInFifo).map fun (h, fifo) =>
      { s with
        hist := h, IotThrInFifo := fifo, clock := clock (fifo.length - s.IotThrInFifo.length) }

/-! ## The runs -/

/-- The `next` fields lead from `ListHead` to the buffer. -/
def InList (h : Hist) (p : Ptr) : Prop := ∃ l, Chain (nextOf h) h.ListHead l ∧ p ∈ l

/-- Only a buffer that is not in the list is filled or pushed. -/
def Fresh (s : History) : Call → Prop
  | .fill p _ => ¬ InList s.hist p
  | .push _ p => ¬ InList s.hist p
  | _ => True

/-- The clock does not run backwards. -/
def Timely (s : History) : Call → Prop
  | .push now _ => s.clock ≤ now
  | .free clock => s.clock ≤ clock 0 ∧ Monotone clock
  | _ => True

/-- The buffer that a call pushes. -/
def Call.pushed : Call → List Ptr
  | .push _ p => [p]
  | _ => []

/-- The buffers that a run pushes, in order. -/
def pushes (calls : List Call) : List Ptr := calls.flatMap Call.pushed

/-! ## What each operation does to the list -/

section operations

variable {h h' : Hist} {l : List Ptr} {fuel : Nat}

theorem hist_find_frag_some {fragLost seqNum : Nat} {o : Option Ptr} (hl : Queued h l)
    (hf : hist_find_frag fuel h fragLost seqNum = some (h', o)) :
    o = l.find? (isFrag h fragLost seqNum) ∧ h' = o.elim h (linger h) := by
  unfold hist_find_frag at hf
  obtain ⟨r, hr, heq⟩ := Option.map_eq_some_iff.mp hf
  have hfind := hl.chain.search_some hr
  cases r with
  | none =>
    cases heq
    exact ⟨hfind, rfl⟩
  | some n =>
    cases heq
    exact ⟨hfind, rfl⟩

theorem hist_find_frag_total (hl : Queued h l) (hf : l.length ≤ fuel) (fragLost seqNum : Nat) :
    ∃ r, hist_find_frag fuel h fragLost seqNum = some r := by
  unfold hist_find_frag
  rw [hl.chain.search_eq _ hf]
  exact ⟨_, rfl⟩

theorem linger_queued (hl : Queued h l) (n : Ptr) : Queued (linger h n) l :=
  hl.write n fun _ => rfl

/-- A pass takes buffers off the front of the list. -/
theorem free_history_some {clock : Nat → Nat} {fifo fifo' : List Ptr} (hl : Queued h l)
    (hf : free_history clock fuel h fifo = some (h', fifo')) :
    ∃ n, fifo' = fifo ++ l.take n ∧ Queued h' (l.drop n) ∧ h'.heap = h.heap := by
  induction l generalizing clock fuel h fifo with
  | nil =>
    have hhead : h.ListHead = none := hl.chain
    unfold free_history hist_peek_timed_head at hf
    simp only [hhead, Option.filter_none] at hf
    cases hf
    exact ⟨0, by simp, hl, rfl⟩
  | cons p ps ih =>
    obtain ⟨hhead, -⟩ := hl.chain
    unfold free_history hist_peek_timed_head at hf
    rw [hhead] at hf
    by_cases hto : (h.heap p).time ≤ clock 0
    · simp only [Option.filter_some, hto, decide_true, if_true] at hf
      cases fuel with
      | zero => cases hf
      | succ fuel =>
        obtain ⟨n, rfl, hj, hheap⟩ := ih (hist_pop_frag_queued hl fifo) hf
        exact ⟨n + 1, by simp [hist_pop_frag], hj, hheap⟩
    · simp only [Option.filter_some, hto, decide_false, Bool.false_eq_true, if_false] at hf
      cases hf
      exact ⟨0, by simp, hl, rfl⟩

theorem free_history_total (clock : Nat → Nat) (hl : Queued h l) (hf : l.length ≤ fuel)
    (fifo : List Ptr) : ∃ r, free_history clock fuel h fifo = some r := by
  induction l generalizing clock fuel h fifo with
  | nil =>
    have hhead : h.ListHead = none := hl.chain
    unfold free_history hist_peek_timed_head
    simp only [hhead, Option.filter_none]
    exact ⟨_, rfl⟩
  | cons p ps ih =>
    obtain ⟨hhead, -⟩ := hl.chain
    unfold free_history hist_peek_timed_head
    rw [hhead]
    by_cases hto : (h.heap p).time ≤ clock 0
    · simp only [Option.filter_some, hto, decide_true, if_true]
      cases fuel with
      | zero => simp at hf
      | succ fuel => exact ih _ (hist_pop_frag_queued hl fifo) (by simpa using hf) _
    · simp only [Option.filter_some, hto, decide_false, Bool.false_eq_true, if_false]
      exact ⟨_, rfl⟩

/-- A pass whose clock does not run backwards takes what it takes when every reading
is the last one. -/
theorem free_history_last {clock : Nat → Nat} {fifo fifo' : List Ptr} (hmono : Monotone clock)
    (hf : free_history clock fuel h fifo = some (h', fifo')) :
    ∃ n, fifo'.length = fifo.length + n ∧
      r_udp.free_history (clock n) fuel h fifo = some (h', fifo') := by
  induction fuel generalizing clock h fifo with
  | zero =>
    unfold free_history at hf
    cases hpeek : hist_peek_timed_head (clock 0) h with
    | none =>
      rw [hpeek] at hf
      cases hf
      exact ⟨0, rfl, by unfold r_udp.free_history; rw [hpeek]⟩
    | some head =>
      rw [hpeek] at hf
      cases hf
  | succ fuel ih =>
    unfold free_history at hf
    cases hpeek : hist_peek_timed_head (clock 0) h with
    | none =>
      rw [hpeek] at hf
      cases hf
      exact ⟨0, rfl, by unfold r_udp.free_history; rw [hpeek]⟩
    | some head =>
      rw [hpeek] at hf
      obtain ⟨n, hlength, hrest⟩ := ih (fun i j hij => hmono (Nat.succ_le_succ hij)) hf
      have hlast : hist_peek_timed_head (clock (n + 1)) h = some head := by
        unfold hist_peek_timed_head at hpeek ⊢
        rw [Option.filter_eq_some_iff, decide_eq_true_eq] at hpeek ⊢
        exact ⟨hpeek.1, hpeek.2.trans (hmono (Nat.zero_le _))⟩
      refine ⟨n + 1, ?_, ?_⟩
      · rw [hlength, hist_pop_frag, List.length_append, List.length_singleton]
        omega
      · unfold r_udp.free_history
        rw [hlast]
        exact hrest

/-- `handle_lost_request` is the lookup and the store of the code. -/
theorem handle_lost_request_eq (h : Hist) (req : RUdpFragmntReq) :
    handle_lost_request h req =
      (hist_find_frag MAX_BUFFER_ELEMS h req.fragmntLost req.seqNum).map fun (h', found) =>
        (found.elim h' (markReply h'), found) := by
  unfold handle_lost_request hist_find_frag r_udp.hist_find_frag
  rw [Option.map_map]
  congr 1
  funext found
  cases found <;> rfl

/-- Where the clock stands still, the readings do not matter. -/
theorem free_history_const (now fuel : Nat) (h : Hist) (fifo : List Ptr) :
    free_history (fun _ => now) fuel h fifo = r_udp.free_history now fuel h fifo := by
  induction fuel generalizing h fifo with
  | zero =>
    unfold free_history r_udp.free_history
    rfl
  | succ fuel ih =>
    unfold free_history r_udp.free_history
    dsimp only
    cases hist_peek_timed_head now h with
    | none => rfl
    | some head => exact ih _ _

end operations

/-! ## What a run keeps -/

/-- The buffers in the list are `l`: what was pushed and has not gone back to the
FIFO. Each has the deadline that its push and its lookups gave it. -/
structure Keeps (past : List Ptr) (s : History) (l : List Ptr) : Prop where
  queued : Queued s.hist l
  pushed : past = s.IotThrInFifo ++ l
  deadline : ∀ p ∈ l, (s.hist.heap p).time = s.pushedAt p + R_UDP_TIMEOUT + s.lookups p

theorem Keeps.init (heap : Ptr → MsgBuf) : Keeps [] (init heap) [] :=
  ⟨⟨rfl, rfl, List.nodup_nil⟩, rfl, fun _ hp => absurd hp List.not_mem_nil⟩

theorem inList_iff {h : Hist} {l : List Ptr} (hl : Queued h l) (p : Ptr) :
    InList h p ↔ p ∈ l := by
  refine ⟨?_, fun hp => ⟨l, hl.chain, hp⟩⟩
  rintro ⟨l', hl', hp⟩
  rw [hl.chain.unique hl']
  exact hp

section keeps

variable {past l : List Ptr} {s s' : History} {fuel : Nat}

/-- A fill leaves the buffers of the list alone. -/
theorem Keeps.fill {p : Ptr} {b : MsgBuf} (hk : Keeps past s l) (hp : p ∉ l) :
    Keeps past { s with hist := s.hist.write p fun _ => b } l := by
  have hne : ∀ q ∈ l, q ≠ p := fun q hq he => hp (he ▸ hq)
  refine ⟨?_, hk.pushed, ?_⟩
  · refine hk.queued.congr rfl rfl fun q hq => ?_
    rw [Hist.write_ne _ _ (hne q hq)]
  · intro q hq
    rw [Hist.write_ne _ _ (hne q hq)]
    exact hk.deadline q hq

theorem Keeps.push {p : Ptr} (hk : Keeps past s l) (hp : p ∉ l) (fuel now : Nat) :
    ∃ s', step fuel s (.push now p) = some s' ∧ Keeps (past ++ [p]) s' (l ++ [p]) := by
  obtain ⟨h', hpush, hj, hheap⟩ := hist_push_frag_queued now hk.queued hp
  refine ⟨_, by simp only [step, hpush]; rfl, hj, ?_, ?_⟩
  · rw [hk.pushed, List.append_assoc]
  · intro q hq
    obtain ⟨o, ho⟩ := hheap q
    rw [ho]
    rcases List.mem_append.mp hq with hold | hnew
    · have hne : q ≠ p := fun he => hp (he ▸ hold)
      simp only [hne, if_false, Function.update_of_ne hne]
      exact hk.deadline q hold
    · obtain rfl := List.mem_singleton.mp hnew
      simp

theorem Keeps.find {fragLost seqNum : Nat} (hk : Keeps past s l)
    (hs : step fuel s (.find fragLost seqNum) = some s') : Keeps past s' l := by
  obtain ⟨⟨h', o⟩, hfind, rfl⟩ := Option.map_eq_some_iff.mp hs
  obtain ⟨-, rfl⟩ := hist_find_frag_some hk.queued hfind
  cases o with
  | none => exact hk
  | some n =>
    refine ⟨linger_queued hk.queued n, hk.pushed, ?_⟩
    intro q hq
    have htime := hk.deadline q hq
    by_cases hqn : q = n
    · subst hqn
      simp only [Option.elim_some, linger, Hist.write_self, Function.update_self]
      omega
    · simp only [Option.elim_some, linger, Hist.write_ne _ _ hqn, Function.update_of_ne hqn]
      exact htime

theorem Keeps.free {clock : Nat → Nat} (hk : Keeps past s l)
    (hs : step fuel s (.free clock) = some s') : ∃ n, Keeps past s' (l.drop n) := by
  obtain ⟨⟨h', fifo⟩, hfree, rfl⟩ := Option.map_eq_some_iff.mp hs
  obtain ⟨n, rfl, hj, hheap⟩ := free_history_some hk.queued hfree
  refine ⟨n, hj, ?_, ?_⟩
  · rw [List.append_assoc, List.take_append_drop]
    exact hk.pushed
  · intro q hq
    simp only [hheap]
    exact hk.deadline q (List.mem_of_mem_drop hq)

/-- One call keeps the law. -/
theorem Keeps.step {c : Call} (hk : Keeps past s l) (hc : Fresh s c)
    (hs : step fuel s c = some s') :
    ∃ l', Keeps (past ++ c.pushed) s' l' ∧ l'.length ≤ l.length + 1 := by
  cases c with
  | fill p b =>
    cases hs
    simp only [Call.pushed, List.append_nil]
    exact ⟨l, hk.fill fun hp => hc ((inList_iff hk.queued p).mpr hp), Nat.le_succ _⟩
  | push now p =>
    have hp : p ∉ l := fun hp => hc ((inList_iff hk.queued p).mpr hp)
    obtain ⟨u, hu, hk'⟩ := hk.push hp fuel now
    obtain rfl : u = s' := Option.some.inj (hu.symm.trans hs)
    exact ⟨_, hk', by simp⟩
  | find fragLost seqNum =>
    simp only [Call.pushed, List.append_nil]
    exact ⟨l, hk.find hs, Nat.le_succ _⟩
  | free clock =>
    obtain ⟨n, hk'⟩ := hk.free hs
    simp only [Call.pushed, List.append_nil]
    refine ⟨_, hk', ?_⟩
    rw [List.length_drop]
    omega

/-- No call is without fuel while the list is short enough, and none is a fault. -/
theorem Keeps.total {c : Call} (hk : Keeps past s l) (hc : Fresh s c) (hf : l.length ≤ fuel) :
    ∃ s', history_runs.step fuel s c = some s' := by
  cases c with
  | fill p b => exact ⟨_, rfl⟩
  | push now p =>
    have hp : p ∉ l := fun hp => hc ((inList_iff hk.queued p).mpr hp)
    obtain ⟨u, hu, -⟩ := hk.push hp fuel now
    exact ⟨u, hu⟩
  | find fragLost seqNum =>
    obtain ⟨r, hr⟩ := hist_find_frag_total hk.queued hf fragLost seqNum
    exact ⟨_, Option.map_eq_some_iff.mpr ⟨r, hr, rfl⟩⟩
  | free clock =>
    obtain ⟨r, hr⟩ := free_history_total clock hk.queued hf s.IotThrInFifo
    exact ⟨_, Option.map_eq_some_iff.mpr ⟨r, hr, rfl⟩⟩

/-- What a run keeps. -/
theorem Keeps.run {calls : List Call} (hk : Keeps past s l)
    (hg : Guarded (history_runs.step fuel) Fresh s calls)
    (hr : runs.run (history_runs.step fuel) s calls = some s') :
    ∃ l', Keeps (past ++ pushes calls) s' l' := by
  induction calls generalizing past s l with
  | nil =>
    cases hr
    exact ⟨l, by simpa [pushes] using hk⟩
  | cons c calls ih =>
    obtain ⟨u, hu, hr'⟩ := run_cons_eq_some.mp hr
    obtain ⟨hc, hg'⟩ := hg
    rw [hu] at hg'
    obtain ⟨l', hk', -⟩ := hk.step hc hu
    obtain ⟨l'', hk''⟩ := ih hk' hg' hr'
    refine ⟨l'', ?_⟩
    rw [pushes, List.flatMap_cons, ← List.append_assoc]
    exact hk''

/-- The list grows by one buffer a call at most, so fuel for the calls is enough. -/
theorem Keeps.run_total {calls : List Call} (hk : Keeps past s l)
    (hg : Guarded (history_runs.step fuel) Fresh s calls)
    (hf : l.length + calls.length ≤ fuel) :
    ∃ s', runs.run (history_runs.step fuel) s calls = some s' := by
  induction calls generalizing past s l with
  | nil => exact ⟨s, rfl⟩
  | cons c calls ih =>
    rw [List.length_cons] at hf
    obtain ⟨hc, hg'⟩ := hg
    obtain ⟨u, hu⟩ := hk.total hc (by omega : l.length ≤ fuel)
    rw [hu] at hg'
    obtain ⟨l', hk', hlen⟩ := hk.step hc hu
    obtain ⟨s', hr⟩ := ih hk' hg' (by omega)
    exact ⟨s', run_cons_eq_some.mpr ⟨u, hu, hr⟩⟩

end keeps

/-! ## The list is a queue -/

/-- The list is the queue `l` of the buffers that the calls pushed and no pass has put
back. A lookup gives the first buffer that fits and leaves the queue as it is, and a
pass takes some of its front. -/
structure Refines (calls : List Call) (s : History) (l : List Ptr) : Prop where
  chain : Chain (nextOf s.hist) s.hist.ListHead l
  nodup : l.Nodup
  pushed : pushes calls = s.IotThrInFifo ++ l
  tail : s.hist.ListTail = l.getLast?
  empty : s.hist.ListTail = none ↔ s.hist.ListHead = none
  find : ∀ fragLost seqNum fuel, l.length ≤ fuel → ∃ h', Queued h' l ∧
    hist_find_frag fuel s.hist fragLost seqNum = some (h', l.find? fun p =>
      (s.hist.heap p).msgHeader.frgmntIdx.val = fragLost ∧
        (s.hist.heap p).msgHeader.seqNum.val = seqNum)
  free : ∀ clock fuel, l.length ≤ fuel → ∃ n h', Queued h' (l.drop n) ∧
    free_history clock fuel s.hist s.IotThrInFifo = some (h', s.IotThrInFifo ++ l.take n)

theorem Keeps.refines {calls : List Call} {s : History} {l : List Ptr}
    (hk : Keeps (pushes calls) s l) : Refines calls s l := by
  refine { chain := hk.queued.chain, nodup := hk.queued.nodup, pushed := hk.pushed
           tail := hk.queued.tail, empty := ?_, find := ?_, free := ?_ }
  · rw [hk.queued.tail, hk.queued.chain.head, List.getLast?_eq_none_iff, List.head?_eq_none_iff]
  · intro fragLost seqNum fuel hf
    obtain ⟨⟨h', o⟩, hfind⟩ := hist_find_frag_total hk.queued hf fragLost seqNum
    obtain ⟨rfl, rfl⟩ := hist_find_frag_some hk.queued hfind
    refine ⟨_, ?_, hfind⟩
    cases l.find? (isFrag s.hist fragLost seqNum) with
    | none => exact hk.queued
    | some n => exact linger_queued hk.queued n
  · intro clock fuel hf
    obtain ⟨⟨h', fifo⟩, hfree⟩ := free_history_total clock hk.queued hf s.IotThrInFifo
    obtain ⟨n, rfl, hj, -⟩ := free_history_some hk.queued hfree
    exact ⟨n, h', hj, hfree⟩

/-- Whatever is pushed, looked up and passed over, at any times: as long as no buffer
of the list is pushed again, the run goes through and the list is a queue. -/
theorem history_refines_queue (heap : Ptr → MsgBuf) (calls : List Call) (fuel : Nat)
    (hf : calls.length ≤ fuel) (hg : Guarded (step fuel) Fresh (init heap) calls) :
    ∃ s, run (step fuel) (init heap) calls = some s ∧ ∃ l, Refines calls s l := by
  have hinit := Keeps.init heap
  obtain ⟨s, hr⟩ := hinit.run_total hg (by simpa using hf)
  obtain ⟨l, hk⟩ := hinit.run hg hr
  rw [List.nil_append] at hk
  exact ⟨s, hr, l, hk.refines⟩

/-- The buffers of the pool, each with its own fragment number. -/
def numbered (p : Ptr) : MsgBuf :=
  { MsgBuf.zero with
    msgHeader :=
      { msgCode := 0, frgmntIdx := Fin.ofNat 32 p, frgmnts := 3, seqNum := 0, size := 0 } }

/-- Two fragments go out at the time 0. -/
def twoOut : List Call := [.push 0 1, .push 0 2]

theorem not_inList_init (heap : Ptr → MsgBuf) (p : Ptr) : ¬ InList (init heap).hist p := by
  rw [inList_iff (Keeps.init heap).queued]
  exact List.not_mem_nil

theorem twoOut_allowed :
    Guarded (step 3) (fun s c => Fresh s c ∧ Timely s c) (init numbered) twoOut := by
  refine ⟨⟨not_inList_init _ 1, Nat.le_refl 0⟩, ⟨?_, Nat.le_refl 0⟩, trivial⟩
  rintro ⟨l, hl, hp⟩
  obtain rfl : l = [1] := hl.unique ⟨rfl, rfl⟩
  exact absurd hp (by decide)

theorem two_out_are_a_queue :
    ∃ s, run (step 3) (init numbered) twoOut = some s ∧ ∃ l, Refines twoOut s l :=
  history_refines_queue numbered twoOut 3 (by decide) (twoOut_allowed.mono fun _ _ h => h.1)

/-! ## The deadlines along the list -/

/-- The pass at the time `t` puts the buffers whose deadline is over back into the
FIFO, in list order, and leaves the others. -/
def PassExact (s : History) (l : List Ptr) (t : Nat) : Prop :=
  ∀ fuel, l.length ≤ fuel → ∃ s', step fuel s (.free fun _ => t) = some s' ∧
    s'.IotThrInFifo = s.IotThrInFifo ++ l.filter (fun p => (s.hist.heap p).time ≤ t) ∧
    Chain (nextOf s'.hist) s'.hist.ListHead (l.filter fun p => t < (s.hist.heap p).time)

/-- Of two buffers in the list: the push and the lookups of the first one come to no
more than those of the second, or the first one is over already. -/
def InOrder (s : History) (p q : Ptr) : Prop :=
  s.pushedAt p + s.lookups p ≤ s.pushedAt q + s.lookups q ∨
    s.pushedAt p + R_UDP_TIMEOUT + s.lookups p ≤ s.clock

/-- Of two buffers in the list, the first one is over at the time `t` if the second one is. -/
def InOrderAt (t : Nat) (s : History) (p q : Ptr) : Prop :=
  s.pushedAt q + R_UDP_TIMEOUT + s.lookups q ≤ t → s.pushedAt p + R_UDP_TIMEOUT + s.lookups p ≤ t

theorem passExact_iff {s : History} {l : List Ptr} (hl : Queued s.hist l) (t : Nat) :
    PassExact s l t ↔ Ahead (fun p => decide ((s.hist.heap p).time ≤ t)) l := by
  rw [← pass_exact_at_iff]
  have hpass : ∀ fuel, l.length ≤ fuel → ∃ s', step fuel s (.free fun _ => t) = some s' ∧
      s'.IotThrInFifo = s.IotThrInFifo ++ l.takeWhile (fun p => (s.hist.heap p).time ≤ t) ∧
      Queued s'.hist (l.dropWhile fun p => (s.hist.heap p).time ≤ t) := by
    intro fuel hf
    obtain ⟨h', hrun, hj, -⟩ := free_history_queued t hl hf s.IotThrInFifo
    rw [← free_history_const] at hrun
    exact ⟨_, by simp only [step, hrun, Option.map_some]; rfl, rfl, hj⟩
  refine ⟨?_, ?_⟩
  · intro h
    obtain ⟨s', hs', hfifo, hchain⟩ := h _ (Nat.le_refl _)
    obtain ⟨s'', hs'', hfifo', hj⟩ := hpass _ (Nat.le_refl _)
    obtain rfl : s' = s'' := Option.some.inj (hs'.symm.trans hs'')
    exact ⟨List.append_cancel_left (hfifo'.symm.trans hfifo), hj.chain.unique hchain⟩
  · rintro ⟨htake, hdrop⟩ fuel hf
    obtain ⟨s', hs', hfifo, hj⟩ := hpass fuel hf
    rw [htake] at hfifo
    rw [hdrop] at hj
    exact ⟨s', hs', hfifo, hj.chain⟩

theorem Keeps.ahead_iff {past l : List Ptr} {s : History} (hk : Keeps past s l) (t : Nat) :
    Ahead (fun p => decide ((s.hist.heap p).time ≤ t)) l ↔ l.Pairwise (InOrderAt t s) := by
  apply List.Pairwise.iff_of_mem
  intro p q hp hq
  simp only [decide_eq_true_eq, InOrderAt, hk.deadline p hp, hk.deadline q hq]

theorem Keeps.due_iff {past l : List Ptr} {s : History} (hk : Keeps past s l) :
    l.Pairwise (Due (fun p => (s.hist.heap p).time) s.clock) ↔ l.Pairwise (InOrder s) := by
  apply List.Pairwise.iff_of_mem
  intro p q hp hq
  simp only [Due, InOrder, hk.deadline p hp, hk.deadline q hq]
  apply or_congr_left
  omega

/-- After a run whose clock does not run backwards, the pass at a time is exact exactly
when no buffer that is over then stands behind one that is not, and every pass from now
on is exact exactly when the list is in order. A lookup can put it out of order: it gives
one buffer a second more, and the pass stops there. -/
theorem passes_exact_iff_in_order {heap : Ptr → MsgBuf} {calls : List Call} {fuel : Nat}
    {s : History} (hg : Guarded (step fuel) (fun s c => Fresh s c ∧ Timely s c) (init heap) calls)
    (hr : run (step fuel) (init heap) calls = some s) :
    ∃ l, Queued s.hist l ∧ (∀ t, PassExact s l t ↔ l.Pairwise (InOrderAt t s)) ∧
      ((∀ t, s.clock ≤ t → PassExact s l t) ↔ l.Pairwise (InOrder s)) := by
  obtain ⟨l, hk⟩ := (Keeps.init heap).run (Guarded.mono (fun _ _ h => h.1) hg) hr
  refine ⟨l, hk.queued, fun t => (passExact_iff hk.queued t).trans (hk.ahead_iff t), ?_⟩
  rw [← hk.due_iff, ← ahead_iff_due]
  exact forall₂_congr fun t _ => passExact_iff hk.queued t

/-- Without a lookup, the list of two is in order. -/
theorem two_out_come_back_on_time :
    ∃ s, run (step 3) (init numbered) twoOut = some s ∧ ∀ t, PassExact s [1, 2] t := by
  obtain ⟨l, hl, -, horder⟩ := passes_exact_iff_in_order twoOut_allowed rfl
  obtain rfl : l = [1, 2] := hl.chain.unique ⟨rfl, rfl, rfl⟩
  refine ⟨_, rfl, fun t => horder.mpr ?_ t (Nat.zero_le t)⟩
  apply List.pairwise_pair.mpr
  exact Or.inl (Nat.le_refl 0)

/-- The first of two buffers is found once. At the time 40 the second is over, and the
pass does not come to it. -/
theorem a_lookup_holds_up_the_others :
    ¬ ∀ heap calls fuel s l t,
      Guarded (step fuel) (fun s c => Fresh s c ∧ Timely s c) (init heap) calls →
      run (step fuel) (init heap) calls = some s → Queued s.hist l → s.clock ≤ t →
        PassExact s l t := by
  intro hall
  have hg : Guarded (step 3) (fun s c => Fresh s c ∧ Timely s c) (init numbered)
      (twoOut ++ [.find 1 0]) := by
    obtain ⟨h1, h2, -⟩ := twoOut_allowed
    exact ⟨h1, h2, ⟨trivial, trivial⟩, trivial⟩
  obtain ⟨s, hs⟩ : ∃ s, run (step 3) (init numbered) (twoOut ++ [.find 1 0]) = some s := ⟨_, rfl⟩
  obtain ⟨l, hk⟩ := (Keeps.init numbered).run (hg.mono fun _ _ h => h.1) hs
  cases hs
  obtain rfl : l = [1, 2] := hk.queued.chain.unique ⟨rfl, rfl, rfl⟩
  obtain ⟨s', hs', hfifo, -⟩ := hall _ _ _ _ _ 40 hg rfl hk.queued (by decide) 3 (by decide)
  cases hs'
  exact absurd hfifo (by decide)

end history_runs

end udp_service
