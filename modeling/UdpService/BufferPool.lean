-- The pool of buffers of `hs_buffer_pool.c`: a ring that hands its buffers out
-- in order and takes them back in the same order, and the threads that share
-- it under its mutex.
import UdpService.Lib.Ring
import UdpService.Lib.Runs

namespace udp_service.hs_buffer_pool

open ring runs

def MAX_BUFFER_COUNT : BitVec 32 := 8192
def MAX_BUFFER_SIZE : BitVec 32 := 2048

/-- The ring. `buf` is the address of its first byte. -/
structure BufPool where
  buf : Nat
  head : BitVec 32
  tail : BitVec 32
  elem_size : BitVec 32
  elem_count : BitVec 32
deriving DecidableEq, Repr

def CIRC_CNT (head tail size : BitVec 32) : BitVec 32 := (head - tail) &&& (size - 1)

def CIRC_SPACE (head tail size : BitVec 32) : BitVec 32 := CIRC_CNT tail (head + 1) size

/-- `none` is a return of -1. The caller's pointer is `q`, and `record` and `buf`
are what `malloc` gives for the record and for its bytes. -/
def create_bufpool (elem_count elem_size : BitVec 32) (q record buf : Option Nat) :
    Option BufPool :=
  if q.isSome then none
  else if elem_size > MAX_BUFFER_SIZE ∨ elem_count > MAX_BUFFER_COUNT then none
  else if record.isNone then none
  else buf.map fun buf => { buf, head := 0, tail := 0, elem_size, elem_count }

def bufpool_elem_count (q : BufPool) : Int := (CIRC_CNT q.head q.tail q.elem_count).toInt

/-- The test before `pthread_cond_wait`. -/
def BufPool.full (q : BufPool) : Prop := CIRC_SPACE q.head q.tail q.elem_count < 1

instance (q : BufPool) : Decidable q.full :=
  inferInstanceAs (Decidable (CIRC_SPACE q.head q.tail q.elem_count < 1))

/-- What `bufpool_getNextFreeBuffer` does past the test: the address that it
returns, and the ring with its head moved. -/
def BufPool.handOut (q : BufPool) : Nat × BufPool :=
  (q.buf + (q.head * q.elem_size).toNat,
    { q with head := (q.head + 1) &&& (q.elem_count - 1) })

/-- `none` when the caller goes to sleep in `pthread_cond_wait`. -/
def bufpool_getNextFreeBuffer (q : BufPool) : Option (Nat × BufPool) :=
  if q.full then none else some q.handOut

/-- The ring after the call, and whether it wakes the sleepers. -/
def bufpool_putBackBuffer (q : BufPool) : BufPool × Bool :=
  if CIRC_CNT q.head q.tail q.elem_count ≥ 1 then
    ({ q with tail := (q.tail + 1) &&& (q.elem_count - 1) }, true)
  else (q, false)

theorem create_bufpool_eq_some {elem_count elem_size : BitVec 32} {q record buf : Option Nat}
    {p : BufPool} : create_bufpool elem_count elem_size q record buf = some p ↔
      q = none ∧ elem_size ≤ MAX_BUFFER_SIZE ∧ elem_count ≤ MAX_BUFFER_COUNT ∧ record.isSome ∧
        ∃ b, buf = some b ∧ p = { buf := b, head := 0, tail := 0, elem_size, elem_count } := by
  unfold create_bufpool
  by_cases hbounds : elem_size > MAX_BUFFER_SIZE ∨ elem_count > MAX_BUFFER_COUNT
  · have hno : ¬ (elem_size ≤ MAX_BUFFER_SIZE ∧ elem_count ≤ MAX_BUFFER_COUNT) := by
      simpa only [not_and_or, BitVec.not_le] using hbounds
    rw [if_pos hbounds, ite_self]
    exact ⟨nofun, fun ⟨_, hsize, hcount, _⟩ => absurd ⟨hsize, hcount⟩ hno⟩
  · have hyes : elem_size ≤ MAX_BUFFER_SIZE ∧ elem_count ≤ MAX_BUFFER_COUNT := by
      simpa only [not_or, BitVec.not_lt] using hbounds
    rw [if_neg hbounds]
    rcases q with _ | q
    · rcases record with _ | record
      · simp
      · rcases buf with _ | buf
        · simp
        · simp [hyes, eq_comm]
    · simp

/-! ## What was handed out, and what came back -/

/-- The ring with the addresses that it handed out, in order, and the number of
put-backs that changed it. -/
structure Session where
  pool : BufPool
  got : List Nat
  back : Nat
deriving DecidableEq, Repr

def Session.opened (q : BufPool) : Session := { pool := q, got := [], back := 0 }

/-- The caller takes what the ring handed out. -/
def Session.take (s : Session) (given : Nat × BufPool) : Session :=
  { s with pool := given.2, got := s.got ++ [given.1] }

def Session.get (s : Session) : Session := s.take s.pool.handOut

def Session.putBack (s : Session) : Session :=
  let pool := (bufpool_putBackBuffer s.pool).1
  { s with pool, back := if pool = s.pool then s.back else s.back + 1 }

/-- The buffers that are handed out and not put back. A put-back names no buffer,
it gives back the oldest. -/
def Session.outstanding (s : Session) : List Nat := s.got.drop s.back

/-- The bytes of two buffers are apart. -/
def Apart (size a b : Nat) : Prop := a + size ≤ b ∨ b + size ≤ a

instance (size a b : Nat) : Decidable (Apart size a b) :=
  inferInstanceAs (Decidable (_ ∨ _))

/-- The ring stands where the two counters say, and they are less than once
around apart. -/
structure Places (k : Nat) (q : BufPool) (s : Session) : Prop where
  count : q.elem_count.toNat = 2 ^ k
  fits : 2 ^ k * q.elem_size.toNat < 2 ^ 31
  count_small : 2 ^ k < 2 ^ 31
  frame : s.pool = { q with head := s.pool.head, tail := s.pool.tail }
  head : s.pool.head.toNat = s.got.length % 2 ^ k
  tail : s.pool.tail.toNat = s.back % 2 ^ k
  back_le : s.back ≤ s.got.length
  room : s.got.length < s.back + 2 ^ k
  addr : ∀ i a, s.got[i]? = some a → a = q.buf + i % 2 ^ k * q.elem_size.toNat

section Places

variable {k : Nat} {q : BufPool} {s : Session}

theorem Places.elem_size_eq (h : Places k q s) : s.pool.elem_size = q.elem_size := by
  rw [h.frame]

theorem Places.elem_count_eq (h : Places k q s) : s.pool.elem_count = q.elem_count := by
  rw [h.frame]

theorem Places.buf_eq (h : Places k q s) : s.pool.buf = q.buf := by
  rw [h.frame]

theorem Places.stands_head (h : Places k q s) : Stands k s.pool.head s.got.length := by
  unfold Stands
  rw [h.head, Nat.mod_mod]

theorem Places.stands_tail (h : Places k q s) : Stands k s.pool.tail s.back := by
  unfold Stands
  rw [h.tail, Nat.mod_mod]

theorem outstanding_length (s : Session) : s.outstanding.length = s.got.length - s.back :=
  List.length_drop

/-- The masked difference counts the buffers that are out. -/
theorem Places.circ_cnt (h : Places k q s) :
    (CIRC_CNT s.pool.head s.pool.tail s.pool.elem_count).toNat = s.outstanding.length := by
  rw [outstanding_length, h.elem_count_eq]
  exact h.stands_head.sub_mask_of_lt h.count h.stands_tail h.back_le h.room

/-- The tail is read as once around ahead of where it is. -/
theorem Places.circ_space (h : Places k q s) :
    (CIRC_SPACE s.pool.head s.pool.tail s.pool.elem_count).toNat =
      2 ^ k - 1 - s.outstanding.length := by
  have hback := h.back_le
  have hroom := h.room
  rw [outstanding_length, h.elem_count_eq]
  unfold CIRC_SPACE CIRC_CNT
  rw [h.stands_tail.add_size.sub_mask_of_lt h.count (h.stands_head.succ h.count) (by omega)
    (by omega)]
  omega

theorem Places.outstanding_lt (h : Places k q s) : s.outstanding.length < 2 ^ k := by
  have hback := h.back_le
  have hroom := h.room
  rw [outstanding_length]
  omega

theorem Places.elem_count (h : Places k q s) :
    bufpool_elem_count s.pool = s.outstanding.length := by
  have hlt := h.outstanding_lt
  have hsmall := h.count_small
  unfold bufpool_elem_count
  rw [BitVec.toInt_eq_toNat_of_lt (by rw [h.circ_cnt]; omega), h.circ_cnt]

/-- The pool is full exactly when all its buffers but one are out. -/
theorem Places.full_iff (h : Places k q s) : s.pool.full ↔ s.outstanding.length = 2 ^ k - 1 := by
  have hlt := h.outstanding_lt
  unfold BufPool.full
  rw [BitVec.lt_def, h.circ_space]
  have hone : (1 : BitVec 32).toNat = 1 := rfl
  omega

/-- The pool has something to take back exactly when something is out. -/
theorem Places.used_iff (h : Places k q s) :
    CIRC_CNT s.pool.head s.pool.tail s.pool.elem_count ≥ 1 ↔ s.outstanding ≠ [] := by
  rw [ge_iff_le, BitVec.le_def, h.circ_cnt, ← List.length_pos_iff]
  rfl

/-- The address past the test is that of the cell at the head: the product does
not wrap. -/
theorem Places.handOut_addr (h : Places k q s) :
    s.pool.handOut.1 = q.buf + s.got.length % 2 ^ k * q.elem_size.toNat := by
  have hlt : s.got.length % 2 ^ k < 2 ^ k := Nat.mod_lt _ (Nat.two_pow_pos k)
  have hmul := Nat.mul_le_mul_right q.elem_size.toNat (Nat.le_of_lt hlt)
  have hfits := h.fits
  unfold BufPool.handOut
  rw [BitVec.toNat_mul, h.elem_size_eq, h.buf_eq, h.head, Nat.mod_eq_of_lt (a := _ * _) (by omega)]

/-- To hand a buffer out while one is free keeps the counters in step. -/
theorem Places.get (h : Places k q s) (hfull : ¬ s.pool.full) : Places k q s.get := by
  have hout := outstanding_length s
  have hlt := h.outstanding_lt
  have hback := h.back_le
  have hmask : ((s.pool.head + 1) &&& (s.pool.elem_count - 1)).toNat =
      (s.got.length + 1) % 2 ^ k := by
    rw [h.elem_count_eq]
    exact (h.stands_head.succ h.count).mask h.count
  rw [h.full_iff] at hfull
  refine ⟨h.count, h.fits, h.count_small, ?_, ?_, h.tail, ?_, ?_, ?_⟩
  · unfold Session.get Session.take BufPool.handOut
    rw [h.frame]
  · unfold Session.get Session.take BufPool.handOut
    rw [hmask, List.length_append, List.length_singleton]
  · unfold Session.get Session.take
    simp only [List.length_append, List.length_singleton]
    omega
  · unfold Session.get Session.take
    simp only [List.length_append, List.length_singleton]
    omega
  · intro i a ha
    unfold Session.get Session.take at ha
    by_cases hi : i < s.got.length
    · rw [List.getElem?_append_left hi] at ha
      exact h.addr i a ha
    · obtain ⟨hi', hlast⟩ : i = s.got.length ∧ s.pool.handOut.1 = a := by
        rw [List.getElem?_append_right (by omega)] at ha
        rcases hd : i - s.got.length with _ | d
        · rw [hd] at ha
          exact ⟨by omega, by simpa using ha⟩
        · rw [hd] at ha
          simp at ha
      rw [← hlast, hi', h.handOut_addr]

theorem putBack_of_empty (hempty : ¬ CIRC_CNT q.head q.tail q.elem_count ≥ 1) :
    bufpool_putBackBuffer q = (q, false) := if_neg hempty

theorem putBack_of_used (hused : CIRC_CNT q.head q.tail q.elem_count ≥ 1) :
    bufpool_putBackBuffer q =
      ({ q with tail := (q.tail + 1) &&& (q.elem_count - 1) }, true) := if_pos hused

/-- Nothing is out, so nothing comes back. -/
theorem Places.putBack_empty (h : Places k q s) (hempty : s.outstanding = []) :
    bufpool_putBackBuffer s.pool = (s.pool, false) := by
  apply putBack_of_empty
  rw [h.used_iff]
  exact not_not_intro hempty

/-- The oldest buffer comes back. -/
theorem Places.putBack_used (h : Places k q s) (hused : s.outstanding ≠ []) :
    s.putBack.pool = { s.pool with tail := (s.pool.tail + 1) &&& (s.pool.elem_count - 1) } ∧
      s.putBack.back = s.back + 1 := by
  have hmask : ((s.pool.tail + 1) &&& (s.pool.elem_count - 1)).toNat = (s.back + 1) % 2 ^ k := by
    rw [h.elem_count_eq]
    exact (h.stands_tail.succ h.count).mask h.count
  have hmoved : (s.pool.tail + 1) &&& (s.pool.elem_count - 1) ≠ s.pool.tail := by
    intro hsame
    have hturn : (s.back + 1) % 2 ^ k = s.back % 2 ^ k := by rw [← hmask, hsame, h.tail]
    have hlt := h.outstanding_lt
    have hpos := List.length_pos_iff.mpr hused
    have := mod_inj (n := s.back) (by omega) (Nat.le_refl _) (by omega) (by omega) hturn
    omega
  unfold Session.putBack
  rw [putBack_of_used (h.used_iff.mpr hused)]
  refine ⟨rfl, if_neg ?_⟩
  intro hsame
  exact hmoved (congrArg BufPool.tail hsame)

theorem Places.putBack (h : Places k q s) : Places k q s.putBack := by
  by_cases hempty : s.outstanding = []
  · have hsame : s.putBack = s := by
      unfold Session.putBack
      rw [h.putBack_empty hempty]
      simp
    rw [hsame]
    exact h
  · obtain ⟨hpool, hback⟩ := h.putBack_used hempty
    have hgot : s.putBack.got = s.got := rfl
    have hout := outstanding_length s
    have hpos := List.length_pos_iff.mpr hempty
    have hroom := h.room
    refine ⟨h.count, h.fits, h.count_small, ?_, ?_, ?_, ?_, ?_, ?_⟩
    · rw [hpool, h.frame]
    · rw [hpool, hgot]
      exact h.head
    · rw [hpool, hback]
      simp only
      rw [h.elem_count_eq]
      exact (h.stands_tail.succ h.count).mask h.count
    · rw [hback, hgot]
      omega
    · rw [hback, hgot]
      omega
    · rw [hgot]
      exact h.addr

/-- A pool that was just created has nothing out. -/
theorem Places.opened {elem_count elem_size : BitVec 32} {p record buf : Option Nat}
    (hk : elem_count.toNat = 2 ^ k)
    (hq : create_bufpool elem_count elem_size p record buf = some q) :
    Places k q (Session.opened q) := by
  obtain ⟨-, hsize, hcount, -, b, -, rfl⟩ := create_bufpool_eq_some.mp hq
  have hsize' : elem_size.toNat ≤ 2048 := hsize
  have hcount' : elem_count.toNat ≤ 8192 := hcount
  have hmul := Nat.mul_le_mul hcount' hsize'
  refine ⟨hk, ?_, by omega, rfl, by simp [Session.opened], by simp [Session.opened],
    Nat.le_refl _, by simp [Session.opened],
    by simp [Session.opened]⟩
  rw [← hk]
  simp only
  omega

/-- Two different cells of the ring hold different bytes. -/
theorem apart_of_ne {i j size buf : Nat} (hne : i ≠ j) :
    Apart size (buf + i * size) (buf + j * size) := by
  unfold Apart
  rcases Nat.lt_or_gt_of_ne hne with hlt | hlt
  · have := Nat.mul_le_mul_right size (Nat.succ_le_of_lt hlt)
    rw [Nat.succ_mul] at this
    omega
  · have := Nat.mul_le_mul_right size (Nat.succ_le_of_lt hlt)
    rw [Nat.succ_mul] at this
    omega

/-- Before the ring comes round, the buffers are taken in the order of their addresses. -/
theorem Places.got_eq (h : Places k q s) (hle : s.got.length ≤ 2 ^ k) :
    s.got = (List.range s.got.length).map fun i => q.buf + i * q.elem_size.toNat := by
  apply List.ext_getElem
  · simp
  · intro i hi _
    rw [h.addr i _ (List.getElem?_eq_getElem hi), Nat.mod_eq_of_lt (hi.trans_le hle),
      List.getElem_map, List.getElem_range]

/-- No two of the buffers that are out share a byte. -/
theorem Places.apart (h : Places k q s) :
    s.outstanding.Pairwise (Apart q.elem_size.toNat) := by
  have hroom := h.room
  have hout := outstanding_length s
  rw [List.pairwise_iff_getElem]
  intro i j hi hj hlt
  have hi' := h.addr (s.back + i) _ (by
    rw [← List.getElem?_drop]
    exact List.getElem?_eq_getElem hi)
  have hj' := h.addr (s.back + j) _ (by
    rw [← List.getElem?_drop]
    exact List.getElem?_eq_getElem hj)
  rw [hi', hj']
  apply apart_of_ne
  intro hsame
  have := mod_inj (n := s.back) (by omega) (by omega) (by omega) (by omega) hsame
  omega

/-- The buffers that are out lie in the bytes that were allocated. -/
theorem Places.inside (h : Places k q s) {a : Nat} (ha : a ∈ s.outstanding) :
    q.buf ≤ a ∧ a + q.elem_size.toNat ≤ q.buf + 2 ^ k * q.elem_size.toNat := by
  obtain ⟨i, hi⟩ := List.mem_iff_getElem?.mp (List.mem_of_mem_drop ha)
  rw [h.addr i a hi]
  have hmod : i % 2 ^ k < 2 ^ k := Nat.mod_lt _ (Nat.two_pow_pos k)
  have hmul := Nat.mul_le_mul_right q.elem_size.toNat (Nat.succ_le_of_lt hmod)
  rw [Nat.succ_mul] at hmul
  omega

end Places

/-! ## One caller -/

inductive Call where
  | get
  | put
deriving DecidableEq, Repr

/-- A caller asks for a buffer only when the pool is not full. -/
def step (s : Session) : Call → Option Session
  | .get => (bufpool_getNextFreeBuffer s.pool).map s.take
  | .put => some s.putBack

theorem step_get (s : Session) : step s .get = if s.pool.full then none else some s.get := by
  unfold step bufpool_getNextFreeBuffer
  split_ifs <;> rfl

theorem step_places {k : Nat} {q : BufPool} (s : Session) (c : Call) (s' : Session)
    (h : Places k q s) (hc : step s c = some s') : Places k q s' := by
  cases c with
  | get =>
    rw [step_get] at hc
    split_ifs at hc with hfull
    cases hc
    exact h.get hfull
  | put =>
    obtain rfl : s.putBack = s' := by simpa [step] using hc
    exact h.putBack

/-- Each call to get a buffer handed one out. -/
theorem step_got {s s' : Session} {c : Call} (hc : step s c = some s') :
    s'.got.length = s.got.length + [c].count .get := by
  cases c with
  | get =>
    rw [step_get] at hc
    split_ifs at hc
    cases hc
    simp [Session.get, Session.take]
  | put =>
    obtain rfl : s.putBack = s' := by simpa [step] using hc
    simp [Session.putBack]

theorem run_got {s s' : Session} {calls : List Call} (hr : run step s calls = some s') :
    s'.got.length = s.got.length + calls.count .get := by
  induction calls generalizing s with
  | nil =>
    cases hr
    simp
  | cons c calls ih =>
    obtain ⟨s₁, hc, hr'⟩ := run_cons_eq_some.mp hr
    rw [ih hr', step_got hc, ← List.singleton_append (l := calls), List.count_append, Nat.add_assoc]

/-- In every run of one caller the pool is a bounded queue of buffers: it knows
how many are out, it hands the cells out in turn, and what is out is apart. A put-back
takes effect exactly when a buffer is out. -/
theorem pool_is_a_bounded_queue {k : Nat} {elem_count elem_size : BitVec 32}
    {p record buf : Option Nat} {q : BufPool} {calls : List Call} {s : Session}
    (hk : elem_count.toNat = 2 ^ k)
    (hq : create_bufpool elem_count elem_size p record buf = some q)
    (hr : run step (Session.opened q) calls = some s) :
    (0 ≤ s.pool.head.toInt ∧ s.pool.head.toInt < elem_count.toNat) ∧
      (0 ≤ s.pool.tail.toInt ∧ s.pool.tail.toInt < elem_count.toNat) ∧
      bufpool_elem_count s.pool = (calls.count .get : Int) - s.back ∧
      bufpool_elem_count s.pool ≤ (elem_count.toNat : Int) - 1 ∧
      s.got.length = calls.count .get ∧
      (∀ i a, s.got[i]? = some a → a = q.buf + i % elem_count.toNat * elem_size.toNat) ∧
      s.outstanding.Pairwise (Apart elem_size.toNat) ∧
      (∀ a ∈ s.outstanding, q.buf ≤ a ∧
        a + elem_size.toNat ≤ q.buf + elem_count.toNat * elem_size.toNat) ∧
      (s.outstanding = [] → bufpool_putBackBuffer s.pool = (s.pool, false)) ∧
      (s.outstanding ≠ [] → s.putBack.back = s.back + 1) := by
  have h : Places k q s := run_invariant step_places (Places.opened hk hq) hr
  have hsize : q.elem_size = elem_size := by
    obtain ⟨-, -, -, -, b, -, rfl⟩ := create_bufpool_eq_some.mp hq
    rfl
  have hgot : s.got.length = calls.count .get := by
    rw [run_got hr]
    exact Nat.zero_add _
  have hpos := Nat.two_pow_pos k
  have hhead := Nat.mod_lt s.got.length hpos
  have htail := Nat.mod_lt s.back hpos
  have hsmall := h.count_small
  have hback := h.back_le
  have hlt := h.outstanding_lt
  have hout := outstanding_length s
  rw [hk, ← hsize]
  refine ⟨?_, ?_, ?_, ?_, hgot, h.addr, h.apart, fun a ha => h.inside ha, h.putBack_empty,
    fun hused => (h.putBack_used hused).2⟩
  · rw [BitVec.toInt_eq_toNat_of_lt (by rw [h.head]; omega), h.head]
    omega
  · rw [BitVec.toInt_eq_toNat_of_lt (by rw [h.tail]; omega), h.tail]
    omega
  · rw [h.elem_count]
    omega
  · rw [h.elem_count]
    omega

/-- Four cells of eight bytes. The fifth buffer to be handed out is the first
cell again. -/
theorem four_cells_in_turn :
    ∃ q s, create_bufpool 4 8 none (some 100) (some 1000) = some q ∧
      run step (Session.opened q) [.get, .get, .get, .put, .put, .get, .put, .put, .put, .get] =
        some s ∧
      s.got = [1000, 1008, 1016, 1024, 1000] ∧ s.outstanding = [1000] ∧
      s.outstanding.Pairwise (Apart 8) :=
  ⟨_, _, rfl, rfl, by decide, by decide,
    (@pool_is_a_bounded_queue 2 4 8 none (some 100) (some 1000) _
      [.get, .get, .get, .put, .put, .get, .put, .put, .put, .get] _ (by decide) rfl
      rfl).2.2.2.2.2.2.1⟩

/-! ## Many callers -/

/-- Where a thread stands in `bufpool_getNextFreeBuffer`. `woken` is between the
wake-up in `pthread_cond_wait` and the return from it with the mutex. -/
inductive Pc where
  | outside
  | asleep
  | woken
deriving DecidableEq, Repr

structure Shared (τ : Type*) extends Session where
  pc : τ → Pc

/-- One hold of the mutex, or a wake-up with no cause. -/
inductive Act (τ : Type*) where
  | get (t : τ)
  | put (t : τ)
  | spurious (t : τ)
  | resume (t : τ)
deriving DecidableEq, Repr

section Threads

variable {τ : Type*} [DecidableEq τ]

def Shared.opened (q : BufPool) : Shared τ :=
  { Session.opened q with pc := fun _ => .outside }

/-- A broadcast wakes every sleeper. -/
def wake (pc : τ → Pc) : τ → Pc := fun t => if pc t = .asleep then .woken else pc t

/-- A thread that comes back from `pthread_cond_wait` takes the buffer at the
head and tests nothing again. -/
def threadStep (s : Shared τ) : Act τ → Option (Shared τ)
  | .get t =>
    if s.pc t = .outside then
      match bufpool_getNextFreeBuffer s.pool with
      | none => some { s with pc := Function.update s.pc t .asleep }
      | some given => some { s with toSession := s.toSession.take given }
    else none
  | .put t =>
    if s.pc t = .outside then
      some { toSession := s.toSession.putBack,
             pc := if (bufpool_putBackBuffer s.pool).2 then wake s.pc else s.pc }
    else none
  | .spurious t =>
    if s.pc t = .asleep then some { s with pc := Function.update s.pc t .woken } else none
  | .resume t =>
    if s.pc t = .woken then
      some { toSession := s.toSession.get, pc := Function.update s.pc t .outside }
    else none

/-- No more than the pool may give is out, all of it is apart, and the pool
counts it. -/
def Sound (q : BufPool) (s : Session) : Prop :=
  s.outstanding.length ≤ q.elem_count.toNat - 1 ∧
    s.outstanding.Pairwise (Apart q.elem_size.toNat) ∧
    bufpool_elem_count s.pool = s.outstanding.length

instance (q : BufPool) (s : Session) : Decidable (Sound q s) :=
  inferInstanceAs (Decidable (_ ∧ _ ∧ _))

/-- No thread comes back from `pthread_cond_wait` to a full pool. -/
def FindsOne (s : Shared τ) (a : Act τ) : Prop := ∀ t, a = .resume t → ¬ s.pool.full

theorem Places.sound {k : Nat} {q : BufPool} {s : Session} (h : Places k q s) : Sound q s := by
  have hlt := h.outstanding_lt
  refine ⟨?_, h.apart, h.elem_count⟩
  rw [h.count]
  omega

/-- What an action leaves of the pool: it is as it was, a buffer came back, or one
was handed out, past the test or past the wait. -/
theorem threadStep_cases {s s' : Shared τ} {a : Act τ} (ha : threadStep s a = some s') :
    s'.toSession = s.toSession ∨ s'.toSession = s.toSession.putBack ∨
      (s'.toSession = s.toSession.get ∧ (¬ s.pool.full ∨ ∃ t, a = .resume t)) := by
  cases a with
  | get t =>
    simp only [threadStep, bufpool_getNextFreeBuffer] at ha
    split_ifs at ha with hpc hfull
    · cases ha
      exact Or.inl rfl
    · cases ha
      exact Or.inr (Or.inr ⟨rfl, Or.inl hfull⟩)
  | put t =>
    simp only [threadStep] at ha
    split_ifs at ha with hpc
    all_goals
      cases ha
      exact Or.inr (Or.inl rfl)
  | spurious t =>
    simp only [threadStep] at ha
    split_ifs at ha with hpc
    cases ha
    exact Or.inl rfl
  | resume t =>
    simp only [threadStep] at ha
    split_ifs at ha with hpc
    cases ha
    exact Or.inr (Or.inr ⟨rfl, Or.inr ⟨t, rfl⟩⟩)

theorem threadStep_places {k : Nat} {q : BufPool} (s : Shared τ) (a : Act τ) (s' : Shared τ)
    (h : Places k q s.toSession) (hok : FindsOne s a) (ha : threadStep s a = some s') :
    Places k q s'.toSession := by
  rcases threadStep_cases ha with hsame | hput | ⟨hget, hroom⟩
  · rw [hsame]
    exact h
  · rw [hput]
    exact h.putBack
  · rw [hget]
    apply h.get
    rcases hroom with hroom | ⟨t, ht⟩
    · exact hroom
    · exact hok t ht

/-- A buffer from a full pool is one too many. -/
theorem Places.not_sound_get {k : Nat} {q : BufPool} {s : Session} (h : Places k q s)
    (hfull : s.pool.full) : ¬ Sound q s.get := by
  have hlt := h.outstanding_lt
  have hlen : s.get.outstanding.length = s.outstanding.length + 1 := by
    have hback := h.back_le
    rw [outstanding_length, outstanding_length]
    unfold Session.get Session.take
    simp only [List.length_append, List.length_singleton]
    omega
  rw [h.full_iff] at hfull
  intro ⟨hle, _⟩
  rw [h.count, hlen] at hle
  omega

/-- An action leaves the pool sound exactly when it is not the return from a wait
to a full pool. -/
theorem threadStep_sound_iff {k : Nat} {q : BufPool} (s : Shared τ) (a : Act τ) (s' : Shared τ)
    (h : Places k q s.toSession) (ha : threadStep s a = some s') :
    (∀ u ∈ threadStep s a, Sound q u.toSession) ↔ FindsOne s a := by
  rw [ha]
  refine ⟨?_, ?_⟩
  · intro hsound t hat hfull
    subst hat
    have hget : s'.toSession = s.toSession.get := by
      simp only [threadStep] at ha
      split_ifs at ha with hpc
      cases ha
      rfl
    exact h.not_sound_get hfull (hget ▸ hsound s' rfl)
  · intro hok u hu
    cases hu
    exact (threadStep_places s a s' h hok ha).sound

/-- In every run of any threads, each action leaves no more out than the pool may
give, all of it apart and counted, exactly when each thread that comes back from
`pthread_cond_wait` finds the pool not full. -/
theorem waits_overcommit_iff {k : Nat} {elem_count elem_size : BitVec 32}
    {p record buf : Option Nat} {q : BufPool} {as : List (Act τ)} {u : Shared τ}
    (hk : elem_count.toNat = 2 ^ k)
    (hq : create_bufpool elem_count elem_size p record buf = some q)
    (hr : run threadStep (Shared.opened q) as = some u) :
    Guarded threadStep (fun s a => ∀ s' ∈ threadStep s a, Sound q s'.toSession)
        (Shared.opened q) as ↔
      Guarded threadStep FindsOne (Shared.opened q) as :=
  guarded_congr (I := fun s => Places k q s.toSession)
    (fun s a _ => threadStep_sound_iff s a) (fun s a _ => threadStep_places s a)
    (Places.opened hk hq) hr

/-- One buffer to give. While the first thread has it two others ask and sleep.
It comes back once, both are woken, and both take: two buffers are out and the
pool reads as empty. -/
theorem one_buffer_wakes_two :
    ¬ ∀ (q : BufPool) (as : List (Act (Fin 3))) (u : Shared (Fin 3)),
      create_bufpool 2 16 none (some 100) (some 1000) = some q →
      run threadStep (Shared.opened q) as = some u → Sound q u.toSession := by
  intro h
  exact absurd
    (h _ [.get 0, .get 1, .get 2, .put 0, .resume 1, .resume 2] _ rfl rfl) (by decide)

/-- The same run with the second waiter left to sleep on. -/
theorem one_buffer_for_one_waiter :
    ∃ (q : BufPool) (u : Shared (Fin 3)),
      create_bufpool 2 16 none (some 100) (some 1000) = some q ∧
      run threadStep (Shared.opened q) [.get 0, .get 1, .put 0, .resume 1] = some u ∧
      u.outstanding = [1016] ∧
      (Guarded threadStep (fun s a => ∀ s' ∈ threadStep s a, Sound q s'.toSession)
          (Shared.opened q) [Act.get (0 : Fin 3), .get 1, .put 0, .resume 1] ↔
        Guarded threadStep FindsOne (Shared.opened q)
          [Act.get (0 : Fin 3), .get 1, .put 0, .resume 1]) :=
  ⟨_, _, rfl, rfl, by decide,
    @waits_overcommit_iff (Fin 3) _ 1 2 16 none (some 100) (some 1000) _
      [.get 0, .get 1, .put 0, .resume 1] _ (by decide) rfl rfl⟩

end Threads

end udp_service.hs_buffer_pool
