-- The FIFOs as the threads of the service see them: the pipe of bytes is a queue of
-- pointers, its count of entries runs ahead of it, and `start_udp_service` feeds it the
-- buffers that circulate.
import UdpService.Lib.LittleEndian
import UdpService.BufferPool
import UdpService.Fifo
import UdpService.Uplink
import UdpService.Bounds

open runs little_endian

namespace udp_service

namespace pipe_queues

open hs_fifo

/-! ## Pointers in the pipe -/

/-- A pointer as it lies in memory. -/
def word (p : Ptr) : Word := ⟨le 8 p, le_length 8 p⟩

/-- The pointer that eight bytes are. -/
def ptrOf (w : Word) : Ptr := ofLe w.bytes

theorem ptrOf_word {p : Ptr} (h : p < 2 ^ 64) : ptrOf (word p) = p := ofLe_le_of_lt h

theorem word_ptrOf (w : Word) : word (ptrOf w) = w := by
  apply Word.ext_bytes
  have hback := le_ofLe w.bytes
  rw [w.eight] at hback
  exact hback

variable {τ : Type*}

/-- The pointers that are written and not read. -/
def queue (s : Fifo τ) : List Ptr := (s.written.drop s.taken.length).map ptrOf

/-- No byte of a flush is in the pipe or on its way: the pipe holds the pointers that are
written and not read, and the others were read in order. -/
structure Clean (s : Fifo τ) : Prop where
  pipe : s.pipe = (s.written.drop s.taken.length).flatMap fun w => cells (some w)
  taken : s.taken.map Prod.snd = s.written.take s.taken.length
  flush : s.flush = false
  pcs : ∀ t, s.pc t ≠ .short ∧ s.pc t ≠ .flushing

theorem Clean.created : Clean (Fifo_create : Fifo τ) :=
  ⟨rfl, rfl, rfl, fun _ => ⟨by simp [Fifo_create], by simp [Fifo_create]⟩⟩

theorem Clean.le {s : Fifo τ} (h : Clean s) : s.taken.length ≤ s.written.length := by
  have hlength := congrArg List.length h.taken
  rw [List.length_map, List.length_take] at hlength
  omega

theorem Clean.line {s : Fifo τ} (h : Clean s) :
    s.taken.map (fun x => ptrOf x.2) ++ queue s = s.written.map ptrOf := by
  have hmap : s.taken.map (fun x => ptrOf x.2) = (s.taken.map Prod.snd).map ptrOf := by
    rw [List.map_map]
    rfl
  rw [hmap, h.taken, queue, ← List.map_append, List.take_append_drop]

theorem Clean.pipe_length {s : Fifo τ} (h : Clean s) : s.pipe.length = 8 * (queue s).length := by
  rw [h.pipe, queue, List.length_map]
  induction s.written.drop s.taken.length with
  | nil => rfl
  | cons w ws ih =>
    rw [List.flatMap_cons, List.length_append, cells_some_length, ih, List.length_cons]
    omega

variable [DecidableEq τ]

/-- What a step does to the queue: a read takes the oldest pointer, the write of a put
brings its pointer in at the end, and every other step leaves it. -/
def QueueStep (s : Fifo τ) (a : Act τ) (s' : Fifo τ) : Prop :=
  match a with
  | .read t => ∃ p, s'.pc t = .got (word p) ∧ queue s = p :: queue s'
  | .putWrite t => ∃ p, s.pc t = .putting (word p) ∧ queue s' = queue s ++ [p]
  | _ => queue s' = queue s

theorem Clean.setPc {s : Fifo τ} (h : Clean s) (t : τ) {pc : Pc} (hshort : pc ≠ .short)
    (hflush : pc ≠ .flushing) : ∀ t', (Function.update s.pc t pc) t' ≠ .short ∧
      (Function.update s.pc t pc) t' ≠ .flushing := by
  intro t'
  by_cases ht : t' = t
  · rw [ht, Function.update_self]
    exact ⟨hshort, hflush⟩
  · rw [Function.update_of_ne ht]
    exact h.pcs t'

/-- A read from the pipe that holds a pointer. -/
theorem Clean.read {s s' : Fifo τ} {t : τ} (h : Clean s) (hs : readPipe s t = some s') :
    Clean s' ∧ ∃ p, s'.pc t = .got (word p) ∧ queue s = p :: queue s' := by
  rcases hrest : s.written.drop s.taken.length with _ | ⟨w, ws⟩
  · have hempty : s.pipe = [] := by rw [h.pipe, hrest]; rfl
    simp only [readPipe, hempty, if_true] at hs
    cases hs
  have hpipe : s.pipe = cells (some w) ++ ws.flatMap fun w => cells (some w) := by
    rw [h.pipe, hrest, List.flatMap_cons]
  have hbytes : (s.pipe.take 8).map Cell.byte = w.bytes := by
    rw [hpipe, List.take_left' (cells_some_length w), cells_some_bytes]
  have hne : s.pipe ≠ [] := by
    intro hnil
    rw [hnil] at hbytes
    exact absurd (congrArg List.length hbytes) (by rw [w.eight]; decide)
  have hnext : s.written.drop (s.taken.length + 1) = ws := by
    rw [← List.drop_drop, hrest]
    rfl
  have hlast : s.written.take (s.taken.length + 1) = s.written.take s.taken.length ++ [w] := by
    rw [List.take_add, hrest]
    rfl
  simp only [readPipe, hne, if_false, hbytes, w.eight, dif_pos] at hs
  obtain rfl := Option.some.inj hs
  refine ⟨⟨?_, ?_, h.flush, h.setPc t (by simp) (by simp)⟩, ptrOf w, ?_, ?_⟩
  · simp only [Fifo.setPc, List.length_append, List.length_singleton]
    rw [hnext, hpipe, List.drop_left' (cells_some_length w)]
  · simp only [Fifo.setPc, List.map_append, List.map_cons, List.map_nil, List.length_append,
      List.length_singleton]
    rw [hlast, h.taken]
  · rw [word_ptrOf]
    simp [Fifo.setPc]
  · simp only [Fifo.setPc, queue, List.length_append, List.length_singleton]
    rw [hrest, hnext]
    rfl

/-- A write of a put. -/
theorem Clean.putWrite {s s' : Fifo τ} {t : τ} (h : Clean s) (hs : putWrite s t = some s') :
    Clean s' ∧ ∃ p, s.pc t = .putting (word p) ∧ queue s' = queue s ++ [p] := by
  unfold hs_fifo.putWrite at hs
  rcases ht : s.pc t with _ | _ | _ | ptr | ptr | _ <;> rw [ht] at hs <;> cases hs
  have hle := h.le
  refine ⟨⟨?_, ?_, h.flush, h.setPc t (by simp) (by simp)⟩, ptrOf ptr, by rw [word_ptrOf], ?_⟩
  · simp only [Fifo.setPc]
    rw [List.drop_append_of_le_length hle, List.flatMap_append, List.flatMap_singleton, h.pipe]
    rfl
  · simp only [Fifo.setPc]
    rw [List.take_append_of_le_length hle, h.taken]
  · simp only [Fifo.setPc, queue]
    rw [List.drop_append_of_le_length hle, List.map_append]
    rfl

/-- One step without a flush. -/
theorem Clean.step {s s' : Fifo τ} {a : Act τ} (h : Clean s) (hs : hs_fifo.step s a = some s')
    (hno : ∀ t, a ≠ .flush t) : Clean s' ∧ QueueStep s a s' := by
  cases a with
  | get t =>
    simp only [hs_fifo.step, Fifo_get, h.flush, Bool.false_eq_true, if_false] at hs
    split_ifs at hs
    cases hs
    exact ⟨⟨h.pipe, h.taken, h.flush, h.setPc t (by simp) (by simp)⟩, rfl⟩
  | read t =>
    simp only [hs_fifo.step] at hs
    split_ifs at hs
    exact h.read hs
  | getDone t =>
    simp only [hs_fifo.step, getDone] at hs
    rcases ht : s.pc t with _ | _ | _ | ptr | ptr | _ <;> rw [ht] at hs <;> cases hs
    · exact absurd ht (h.pcs t).1
    · exact ⟨⟨h.pipe, h.taken, h.flush, h.setPc t (by simp) (by simp)⟩, rfl⟩
  | put t ptr =>
    simp only [hs_fifo.step] at hs
    split_ifs at hs
    cases hs
    exact ⟨⟨h.pipe, h.taken, h.flush, h.setPc t (by simp) (by simp)⟩, rfl⟩
  | putWrite t => exact h.putWrite hs
  | flush t => exact absurd rfl (hno t)
  | flushWrite t =>
    simp only [hs_fifo.step] at hs
    split_ifs at hs with ht
    exact absurd ht (h.pcs t).2

theorem Clean.run {s u : Fifo τ} {as : List (Act τ)} (h : Clean s)
    (hr : runs.run hs_fifo.step s as = some u) (hno : ∀ t, Act.flush t ∉ as) : Clean u := by
  refine run_invariant_mem (I := Clean) ?_ h hr
  intro v a ha v' hv hs
  exact (hv.step hs fun t hat => hno t (hat ▸ ha)).1

/-- In every run without a flush the pipe is a queue of pointers: a read goes on exactly when
there is one and takes the oldest, a put brings its pointer in at the end, and nothing else
changes the queue. -/
theorem the_pipe_is_a_queue_of_pointers {as : List (Act τ)} {u : Fifo τ}
    (hr : runs.run hs_fifo.step Fifo_create as = some u) (hno : ∀ t, Act.flush t ∉ as) :
    (∀ t, u.pc t = .tested → ((∃ u', hs_fifo.step u (.read t) = some u') ↔ queue u ≠ [])) ∧
      (∀ a u', hs_fifo.step u a = some u' → (∀ t, a ≠ .flush t) → QueueStep u a u') ∧
      u.pipe.length = 8 * (queue u).length ∧
      u.taken.map (fun x => ptrOf x.2) ++ queue u = u.written.map ptrOf := by
  have hclean := Clean.created.run hr hno
  refine ⟨?_, fun a u' hs hno => (hclean.step hs hno).2, hclean.pipe_length, hclean.line⟩
  intro t ht
  have hlength := hclean.pipe_length
  refine ⟨?_, ?_⟩
  · rintro ⟨u', hs⟩
    obtain ⟨-, p, -, hqueue⟩ := hclean.step hs nofun
    rw [hqueue]
    exact List.cons_ne_nil _ _
  · intro hne
    have hpos := List.length_pos_iff.mpr hne
    have hpipe : u.pipe ≠ [] := List.length_pos_iff.mp (by omega)
    simp only [hs_fifo.step, ht, if_true, readPipe, hpipe, if_false]
    split_ifs
    · exact ⟨_, rfl⟩
    · exact ⟨_, rfl⟩

/-- Two threads put the pointers 4096 and 8192, and a third is about to read. -/
def twoPuts : List (Act (Option Bool)) :=
  [.put (some false) (word 4096), .put (some true) (word 8192), .putWrite (some true), .get none,
    .putWrite (some false)]

theorem the_second_put_is_read_first : ∃ u, runs.run hs_fifo.step Fifo_create twoPuts = some u ∧
    queue u = [8192, 4096] ∧ u.pipe.length = 16 ∧
    ∃ u', hs_fifo.step u (.read none) = some u' ∧ QueueStep u (.read none) u' := by
  have hsome : (runs.run hs_fifo.step Fifo_create twoPuts).isSome = true := by decide +kernel
  obtain ⟨u, hu⟩ := Option.isSome_iff_exists.mp hsome
  have hqueue : (runs.run hs_fifo.step Fifo_create twoPuts).map queue = some [8192, 4096] := by
    decide +kernel
  have htested : (runs.run hs_fifo.step Fifo_create twoPuts).map (fun v => v.pc none) =
      some .tested := by decide +kernel
  rw [hu, Option.map_some, Option.some_inj] at hqueue htested
  obtain ⟨hread, hstep, hlength, -⟩ := the_pipe_is_a_queue_of_pointers hu (by decide)
  obtain ⟨u', hs⟩ := (hread none htested).mpr (by rw [hqueue]; decide)
  rw [hqueue] at hlength
  exact ⟨u, hu, hqueue, hlength, u', hs, hstep _ u' hs nofun⟩

/-! ## The count of entries -/

/-- `Fifo_getNumEntries`. -/
def Fifo_getNumEntries (s : Fifo τ) : Int := s.numBufs

/-- A thread that has counted its put and not written it, or has read a pointer and not
counted that. -/
def ahead : Pc → Nat
  | .putting _ => 1
  | .got _ => 1
  | _ => 0

/-- The threads between their count and the pipe. -/
def between [Fintype τ] (s : Fifo τ) : Nat := ∑ t, ahead (s.pc t)

theorem between_update [Fintype τ] {m n : Nat} (pcs : τ → Pc) (t : τ) (pc : Pc)
    (hm : ahead (pcs t) = m) (hn : ahead pc = n) :
    (∑ t', ahead (Function.update pcs t pc t')) + m = (∑ t', ahead (pcs t')) + n := by
  have hsum : ∀ f : τ → Pc, ∑ t', ahead (f t') =
      ahead (f t) + ∑ t' ∈ Finset.univ.erase t, ahead (f t') := fun f =>
    (Finset.add_sum_erase _ _ (Finset.mem_univ t)).symm
  have hothers : ∑ t' ∈ Finset.univ.erase t, ahead (Function.update pcs t pc t') =
      ∑ t' ∈ Finset.univ.erase t, ahead (pcs t') := by
    apply Finset.sum_congr rfl
    intro t' ht'
    rw [Function.update_of_ne (Finset.ne_of_mem_erase ht')]
  rw [hsum (Function.update pcs t pc), hsum pcs, hothers, Function.update_self, hm, hn]
  omega

omit [DecidableEq τ] in
theorem between_le [Fintype τ] (s : Fifo τ) : between s ≤ Fintype.card τ := by
  have hone : ∀ t ∈ Finset.univ, ahead (s.pc t) ≤ 1 := by
    intro t _
    unfold ahead
    split <;> decide
  have hsum := Finset.sum_le_card_nsmul _ _ _ hone
  rwa [Finset.card_univ, smul_eq_mul, Nat.mul_one] at hsum

/-- The count, and the reads, against the writes and the threads in between. -/
def Counted [Fintype τ] (s : Fifo τ) : Prop :=
  s.numBufs + s.taken.length = s.written.length + between s

theorem step_counted [Fintype τ] (s : Fifo τ) (a : Act τ) (s' : Fifo τ) (h : Counted s)
    (hs : hs_fifo.step s a = some s') : Counted s' := by
  unfold Counted between at h ⊢
  cases a with
  | get t =>
    simp only [hs_fifo.step, Fifo_get] at hs
    split_ifs at hs with ht hflush <;> cases hs
    · exact h
    · have hsum := between_update (m := 0) (n := 0) s.pc t .tested (by rw [ht]; rfl) rfl
      simp only [Fifo.setPc]
      omega
  | read t =>
    simp only [hs_fifo.step, readPipe] at hs
    split_ifs at hs with ht hempty hlen <;> cases hs
    · have hsum := between_update (m := 0) (n := 1) s.pc t (.got ⟨_, hlen⟩)
        (by rw [ht]; rfl) rfl
      simp only [Fifo.setPc, List.length_append, List.length_singleton]
      omega
    · have hsum := between_update (m := 0) (n := 0) s.pc t .short (by rw [ht]; rfl) rfl
      simp only [Fifo.setPc]
      omega
  | getDone t =>
    simp only [hs_fifo.step, getDone] at hs
    rcases ht : s.pc t with _ | _ | _ | ptr | ptr | _ <;> rw [ht] at hs <;> cases hs
    · have hsum := between_update (m := 0) (n := 0) s.pc t .idle (by rw [ht]; rfl) rfl
      simp only [Fifo.setPc]
      omega
    · have hsum := between_update (m := 1) (n := 0) s.pc t .idle (by rw [ht]; rfl) rfl
      simp only [Fifo.setPc]
      omega
  | put t ptr =>
    simp only [hs_fifo.step] at hs
    split_ifs at hs with ht
    cases hs
    have hsum := between_update (m := 0) (n := 1) s.pc t (.putting ptr) (by rw [ht]; rfl) rfl
    simp only [Fifo_put, Fifo.setPc]
    omega
  | putWrite t =>
    simp only [hs_fifo.step, putWrite] at hs
    rcases ht : s.pc t with _ | _ | _ | ptr | ptr | _ <;> rw [ht] at hs <;> cases hs
    have hsum := between_update (m := 1) (n := 0) s.pc t .idle (by rw [ht]; rfl) rfl
    simp only [Fifo.setPc, List.length_append, List.length_singleton]
    omega
  | flush t =>
    simp only [hs_fifo.step] at hs
    split_ifs at hs with ht
    cases hs
    have hsum := between_update (m := 0) (n := 0) s.pc t .flushing (by rw [ht]; rfl) rfl
    simp only [Fifo_flush, Fifo.setPc]
    omega
  | flushWrite t =>
    simp only [hs_fifo.step] at hs
    split_ifs at hs with ht
    cases hs
    have hsum := between_update (m := 0) (n := 0) s.pc t .idle (by rw [ht]; rfl) rfl
    simp only [flushWrite, Fifo.setPc]
    omega

/-- The count that `Fifo_getNumEntries` reports, in every run of any number of threads: as
many as are written and not read, and one more for each thread between its count and the
pipe. Without a flush it is never less than what the pipe holds, and by no more than the
threads are, so it stays in the range of an `int` while the pipe holds less than that. -/
theorem the_count_is_ahead_of_the_pipe [Fintype τ] {as : List (Act τ)} {u : Fifo τ}
    (hr : runs.run hs_fifo.step Fifo_create as = some u) :
    Fifo_getNumEntries u + u.taken.length = u.written.length + between u ∧
      ((∀ t, Act.flush t ∉ as) → Fifo_getNumEntries u = (queue u).length + between u ∧
        (queue u).length ≤ Fifo_getNumEntries u ∧
        Fifo_getNumEntries u ≤ (queue u).length + Fintype.card τ) := by
  have hcounted : Counted u :=
    run_invariant step_counted (by simp [Counted, between, Fifo_create, ahead]) hr
  refine ⟨hcounted, ?_⟩
  intro hno
  have hle := (Clean.created.run hr hno).le
  have hfew := between_le u
  have hcount : Fifo_getNumEntries u = (queue u).length + between u := by
    unfold Fifo_getNumEntries queue
    rw [List.length_map, List.length_drop]
    unfold Counted at hcounted
    omega
  exact ⟨hcount, by omega, by omega⟩

/-- The count is 2 while one pointer is in the pipe: the second thread has counted its put
and not written it. -/
theorem a_put_is_counted_early : ∃ u : Fifo (Option Bool),
    runs.run hs_fifo.step Fifo_create (twoPuts.take 3) = some u ∧ Fifo_getNumEntries u = 2 ∧
    (queue u).length = 1 := by
  have hsome : (runs.run hs_fifo.step Fifo_create (twoPuts.take 3)).isSome = true := by
    decide +kernel
  obtain ⟨u, hu⟩ := Option.isSome_iff_exists.mp hsome
  have hcounts : (runs.run hs_fifo.step Fifo_create (twoPuts.take 3)).map
      (fun v => ((queue v).length, between v)) = some (1, 1) := by decide +kernel
  rw [hu, Option.map_some, Option.some_inj, Prod.mk.injEq] at hcounts
  obtain ⟨hcount, -⟩ := (the_count_is_ahead_of_the_pipe hu).2 (by decide)
  rw [hcounts.1, hcounts.2] at hcount
  exact ⟨u, hu, hcount, hcounts.1⟩

/-! ## The feed -/

/-- The loop of `start_udp_service` that feeds a FIFO with buffers of a pool. There is no
result when the pool puts the caller to sleep: no thread puts a buffer back. -/
def feed_loop (t : τ) : Nat → hs_buffer_pool.BufPool → Fifo τ →
    Option (hs_buffer_pool.BufPool × Fifo τ)
  | 0, pool, fifo => some (pool, fifo)
  | n + 1, pool, fifo =>
    (hs_buffer_pool.bufpool_getNextFreeBuffer pool).bind fun given =>
      (runs.run hs_fifo.step fifo [.put t (word given.1), .putWrite t]).bind fun fifo =>
        feed_loop t n given.2 fifo

/-- The pool and the FIFO of one direction in `start_udp_service`. `record` and `buf` are
what `malloc` gives. -/
def start_udp_service (t : τ) (record buf : Option Nat) :
    Option (hs_buffer_pool.BufPool × Fifo τ) :=
  (hs_buffer_pool.create_bufpool (BitVec.ofNat 32 MAX_BUFFER_ELEMS)
    (BitVec.ofNat 32 bounds.MSG_BUF_SIZE) none record buf).bind fun pool =>
      feed_loop t (MAX_BUFFER_ELEMS - 1) pool Fifo_create

/-- A put by a thread that is outside. -/
theorem run_put {s : Fifo τ} {t : τ} (ht : s.pc t = .idle) (w : Word) :
    ∃ s', runs.run hs_fifo.step s [.put t w, .putWrite t] = some s' ∧
      s'.written = s.written ++ [w] ∧ s'.taken = s.taken ∧ s'.pc = s.pc := by
  have hpcs : Function.update s.pc t .idle = s.pc := by rw [← ht, Function.update_eq_self]
  refine ⟨{ s with
    pipe := s.pipe ++ w.bytes.map (⟨·, false⟩), numBufs := s.numBufs + 1
    written := s.written ++ [w] }, ?_, rfl, rfl, rfl⟩
  simp [runs.run, hs_fifo.step, ht, Fifo_put, Fifo.setPc, putWrite, hpcs]

section feed

variable {k : Nat} {q : hs_buffer_pool.BufPool} {sess : hs_buffer_pool.Session} {t : τ}
  {s : Fifo τ}

open hs_buffer_pool in
/-- A turn of the loop, while the pool has a buffer: it goes into the FIFO. -/
theorem feed_loop_turn (n : Nat) (hfull : ¬ sess.pool.full)
    (ht : s.pc t = .idle) : ∃ s', feed_loop t (n + 1) sess.pool s = feed_loop t n sess.get.pool s' ∧
      runs.run hs_fifo.step s [.put t (word sess.pool.handOut.1), .putWrite t] = some s' ∧
      s'.written = s.written ++ [word sess.pool.handOut.1] ∧ s'.taken = s.taken ∧
      s'.pc = s.pc := by
  obtain ⟨s', hrun, hwritten, htaken, hpc⟩ := run_put ht (word sess.pool.handOut.1)
  refine ⟨s', ?_, hrun, hwritten, htaken, hpc⟩
  rw [feed_loop, bufpool_getNextFreeBuffer, if_neg hfull, Option.bind_some, hrun,
    Option.bind_some]
  rfl

open hs_buffer_pool in
/-- The loop, while the pool has as many buffers as it takes. -/
theorem feed_loop_spec (n : Nat) (hp : Places k q sess) (hback : sess.back = 0)
    (hroom : sess.got.length + n < 2 ^ k) (ht : s.pc t = .idle) :
    ∃ sess' s' as, feed_loop t n sess.pool s = some (sess'.pool, s') ∧ Places k q sess' ∧
      sess'.back = 0 ∧ sess'.got.length = sess.got.length + n ∧
      (∃ new, sess'.got = sess.got ++ new ∧ s'.written = s.written ++ new.map word) ∧
      runs.run hs_fifo.step s as = some s' ∧ (∀ t, Act.flush t ∉ as) ∧ s'.taken = s.taken ∧
      s'.pc = s.pc := by
  induction n generalizing sess s with
  | zero =>
    exact ⟨sess, s, [], rfl, hp, hback, rfl, ⟨[], by simp⟩, rfl, by simp, rfl, rfl⟩
  | succ n ih =>
    have hfull : ¬ sess.pool.full := by
      rw [hp.full_iff, outstanding_length]
      omega
    have hgot : sess.get.got = sess.got ++ [sess.pool.handOut.1] := rfl
    obtain ⟨v, hturn, hput, hwritten, htaken, hpc⟩ := feed_loop_turn n hfull ht
    obtain ⟨sess', s', as, hloop, hp', hback', hlength, ⟨new, hnew, hwritten'⟩, hrun, hno, htaken',
      hpc'⟩ := ih (hp.get hfull) hback
        (by rw [hgot, List.length_append, List.length_singleton]; omega) (hpc ▸ ht)
    refine ⟨sess', s', [.put t (word sess.pool.handOut.1), .putWrite t] ++ as, hturn ▸ hloop, hp',
      hback', ?_, ⟨sess.pool.handOut.1 :: new, ?_, ?_⟩, ?_, ?_, htaken'.trans htaken,
      hpc'.trans hpc⟩
    · rw [hlength, hgot, List.length_append, List.length_singleton]
      omega
    · rw [hnew, hgot, List.append_assoc]
      rfl
    · rw [hwritten', hwritten, List.append_assoc]
      rfl
    · rw [run_append, hput]
      exact hrun
    · intro t'
      simpa using hno t'

end feed

/-- What is written stays written, in its order. -/
theorem run_written {s u : Fifo τ} {as : List (Act τ)}
    (hr : runs.run hs_fifo.step s as = some u) : s.written <+: u.written := by
  refine run_invariant (I := fun v => s.written <+: v.written) ?_ (List.prefix_refl _) hr
  intro v a v' hprefix hs
  cases step_moves hs with
  | quiet => exact hprefix
  | wrote => exact hprefix.trans (List.prefix_append _ _)
  | short => exact hprefix
  | took => exact hprefix
  | gave => exact hprefix

open hs_buffer_pool in
/-- The start of a direction, once `malloc` gave the bytes of the pool: the loop takes the
first 63 buffers, which lie apart in these bytes, no more are left in the pool, and they are in
the FIFO in the order of their addresses. Every later read, in any run of the threads without a flush, gives the fed
buffers first and then what was put after them. -/
theorem the_feed_is_what_circulates (t : τ) (record buf : Nat)
    (hbuf : buf + MAX_BUFFER_ELEMS * bounds.MSG_BUF_SIZE ≤ 2 ^ 64) :
    ∃ (feed : Feed) (pool : BufPool) (fifo : Fifo τ),
      start_udp_service t (some record) (some buf) = some (pool, fifo) ∧ pool.full ∧
      feed.ptrs = ((List.range (MAX_BUFFER_ELEMS - 1)).map fun i =>
        buf + i * bounds.MSG_BUF_SIZE) ∧
      queue fifo = feed.ptrs ∧ feed.ptrs.Pairwise (Apart bounds.MSG_BUF_SIZE) ∧
      (∀ p ∈ feed.ptrs, buf ≤ p ∧
        p + bounds.MSG_BUF_SIZE ≤ buf + MAX_BUFFER_ELEMS * bounds.MSG_BUF_SIZE) ∧
      ∀ as u, runs.run hs_fifo.step fifo as = some u → (∀ t, Act.flush t ∉ as) →
        ∃ later, u.written = fifo.written ++ later ∧
          u.taken.map (fun x => ptrOf x.2) ++ queue u = feed.ptrs ++ later.map ptrOf := by
  obtain ⟨q, hq⟩ : ∃ q, create_bufpool (BitVec.ofNat 32 MAX_BUFFER_ELEMS)
      (BitVec.ofNat 32 bounds.MSG_BUF_SIZE) none (some record) (some buf) = some q :=
    ⟨_, create_bufpool_eq_some.mpr ⟨rfl, by decide, by decide, rfl, buf, rfl, rfl⟩⟩
  have hopened : Places 6 q (Session.opened q) := Places.opened (by decide) hq
  have hq' : q.elem_size.toNat = bounds.MSG_BUF_SIZE ∧ q.buf = buf := by
    have hsize : (BitVec.ofNat 32 bounds.MSG_BUF_SIZE).toNat = bounds.MSG_BUF_SIZE := by decide
    obtain ⟨-, -, -, -, b, hb, rfl⟩ := create_bufpool_eq_some.mp hq
    exact ⟨hsize, (Option.some.inj hb).symm⟩
  have hfits : 0 + 63 < 2 ^ 6 := by decide
  obtain ⟨sess, fifo, as₀, hloop, hp, hback, hlength, ⟨new, hnew, hwritten⟩, hrun, hno, htaken,
    -⟩ := feed_loop_spec (s := (Fifo_create : Fifo τ)) (t := t) 63 hopened rfl hfits rfl
  have hgot : sess.got = new := hnew
  have hlen : new.length = 63 := by
    rw [← hgot, hlength]
    rfl
  have hout : sess.outstanding = new := by
    rw [Session.outstanding, hback, hgot]
    rfl
  have haddr : new = (List.range (MAX_BUFFER_ELEMS - 1)).map fun i =>
      buf + i * bounds.MSG_BUF_SIZE := by
    have hlt : sess.got.length ≤ 2 ^ 6 := by rw [hgot, hlen]; decide
    have h := hp.got_eq hlt
    rw [hgot, hlen, hq'.1, hq'.2] at h
    exact h
  have hapart := hp.apart
  have hinside : ∀ p ∈ new, buf ≤ p ∧
      p + bounds.MSG_BUF_SIZE ≤ buf + MAX_BUFFER_ELEMS * bounds.MSG_BUF_SIZE := by
    intro p hmem
    have h := hp.inside (hout ▸ hmem)
    rw [hq'.1, hq'.2] at h
    exact h
  rw [hout, hq'.1] at hapart
  have hnodup : new.Nodup := by
    refine hapart.imp fun {a b} hab heq => ?_
    have hpos : 0 < bounds.MSG_BUF_SIZE := by decide
    unfold Apart at hab
    omega
  have hback64 : (new.map word).map ptrOf = new := by
    have hsame : ∀ p ∈ new, ptrOf (word p) = p := by
      intro p hmem
      have h := hinside p hmem
      have hpos : 0 < bounds.MSG_BUF_SIZE := by decide
      have hlt : p < 2 ^ 64 := by omega
      exact ptrOf_word hlt
    rw [List.map_map]
    exact (List.map_congr_left hsame).trans (List.map_id new)
  have hclean := Clean.created.run hrun hno
  have hnone : fifo.taken = [] := htaken
  have hfeed : fifo.written = new.map word := hwritten
  refine ⟨⟨new, hnodup, hlen⟩, sess.pool, fifo, ?_, ?_, haddr, ?_, hapart, hinside, ?_⟩
  · unfold start_udp_service
    rw [hq, Option.bind_some]
    exact hloop
  · rw [hp.full_iff, hout, hlen]
    rfl
  · rw [queue, hnone, hfeed]
    exact hback64
  · intro as u hr hquiet
    obtain ⟨later, hlater⟩ := run_written hr
    refine ⟨later, hlater.symm, ?_⟩
    rw [(hclean.run hr hquiet).line, ← hlater, List.map_append, hfeed, hback64]

/-- A thread takes the first buffer that was fed, and puts it into the same FIFO again. -/
theorem the_first_of_63_comes_round : ∃ (feed : Feed) (pool : hs_buffer_pool.BufPool)
    (fifo u : Fifo (Fin 2)) (later : List Word),
    start_udp_service 0 (some 0) (some 4096) = some (pool, fifo) ∧ pool.full ∧
      runs.run hs_fifo.step fifo [.get 1, .read 1, .getDone 1, .put 1 (word 4096), .putWrite 1] =
        some u ∧
      u.taken.map (fun x => ptrOf x.2) ++ queue u = feed.ptrs ++ later.map ptrOf := by
  obtain ⟨feed, pool, fifo, hstart, hfull, -, -, -, -, hruns⟩ :=
    the_feed_is_what_circulates (0 : Fin 2) 0 4096 (by decide)
  have hsome : ((start_udp_service (0 : Fin 2) (some 0) (some 4096)).bind fun r =>
      runs.run hs_fifo.step r.2
        [.get 1, .read 1, .getDone 1, .put 1 (word 4096), .putWrite 1]).isSome = true := by
    decide +kernel
  obtain ⟨u, hu⟩ := Option.isSome_iff_exists.mp hsome
  rw [hstart, Option.bind_some] at hu
  obtain ⟨later, -, hlater⟩ := hruns _ u hu (by decide)
  exact ⟨feed, pool, fifo, u, later, hstart, hfull, hu, hlater⟩

end pipe_queues

end udp_service
