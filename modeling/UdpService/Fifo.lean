-- The queue of pointers of `hs_fifo.c`: a pipe of bytes that any threads write
-- and read eight at a time, and into which a flush writes one byte to wake the
-- readers.
import UdpService.Lib.Runs

namespace udp_service.hs_fifo

open runs

/-- A pointer as it lies in memory, of `sizeof(ptr)` bytes. -/
structure Word where
  bytes : List UInt8
  eight : bytes.length = 8
deriving DecidableEq, Repr

/-- A byte in the pipe. `flush` tells who wrote it, and no step reads it. -/
structure Cell where
  byte : UInt8
  flush : Bool
deriving DecidableEq, Repr

/-- Where a thread stands. In `Fifo_get` it has `tested` the flag, has read too
`short`, or has `got` a pointer; in `Fifo_put` it has counted, in `Fifo_flush` it
has set the flag. -/
inductive Pc where
  | idle
  | tested
  | short
  | got (ptr : Word)
  | putting (ptr : Word)
  | flushing
deriving DecidableEq, Repr

/-- The descriptor and its pipe. `written`, `taken` and `returned` record the
pointers at the write, at the read and at the return of 0. `numBufs` is an `int`
in the source, and stays close to the pointers in the pipe. -/
structure Fifo (τ : Type*) where
  pipe : List Cell
  flush : Bool
  numBufs : Int
  pc : τ → Pc
  written : List Word
  taken : List (τ × Word)
  returned : List (τ × Word)

/-- One step of a thread. `get`, `put` and `flush` start a call. -/
inductive Act (τ : Type*) where
  | get (t : τ)
  | read (t : τ)
  | getDone (t : τ)
  | put (t : τ) (ptr : Word)
  | putWrite (t : τ)
  | flush (t : τ)
  | flushWrite (t : τ)
deriving DecidableEq, Repr

variable {τ : Type*} [DecidableEq τ]

def Fifo_create : Fifo τ :=
  { pipe := [], flush := false, numBufs := 0, pc := fun _ => .idle,
    written := [], taken := [], returned := [] }

def Fifo.setPc (s : Fifo τ) (t : τ) (pc : Pc) : Fifo τ :=
  { s with pc := Function.update s.pc t pc }

/-- The test of the flag: a call that finds it set returns -1. -/
def Fifo_get (s : Fifo τ) (t : τ) : Fifo τ := if s.flush then s else s.setPc t .tested

/-- `read` waits while the pipe is empty, and else takes what there is, up to
eight bytes. -/
def readPipe (s : Fifo τ) (t : τ) : Option (Fifo τ) :=
  let bytes := (s.pipe.take 8).map Cell.byte
  if s.pipe = [] then none
  else if h : bytes.length = 8 then
    some { s.setPc t (.got ⟨bytes, h⟩) with
           pipe := s.pipe.drop 8, taken := s.taken ++ [(t, ⟨bytes, h⟩)] }
  else some { s.setPc t .short with pipe := s.pipe.drop 8 }

/-- A short read clears the flag and returns -1. A full one returns 0. -/
def getDone (s : Fifo τ) (t : τ) : Option (Fifo τ) :=
  match s.pc t with
  | .short => some { s.setPc t .idle with flush := false }
  | .got ptr =>
    some { s.setPc t .idle with numBufs := s.numBufs - 1, returned := s.returned ++ [(t, ptr)] }
  | _ => none

def Fifo_put (s : Fifo τ) (t : τ) (ptr : Word) : Fifo τ :=
  { s.setPc t (.putting ptr) with numBufs := s.numBufs + 1 }

def putWrite (s : Fifo τ) (t : τ) : Option (Fifo τ) :=
  match s.pc t with
  | .putting ptr =>
    some { s.setPc t .idle with
           pipe := s.pipe ++ ptr.bytes.map (⟨·, false⟩), written := s.written ++ [ptr] }
  | _ => none

def Fifo_flush (s : Fifo τ) (t : τ) : Fifo τ := { s.setPc t .flushing with flush := true }

def flushWrite (s : Fifo τ) (t : τ) : Fifo τ :=
  { s.setPc t .idle with pipe := s.pipe ++ [⟨0xff, true⟩] }

def step (s : Fifo τ) : Act τ → Option (Fifo τ)
  | .get t => if s.pc t = .idle then some (Fifo_get s t) else none
  | .read t => if s.pc t = .tested then readPipe s t else none
  | .getDone t => getDone s t
  | .put t ptr => if s.pc t = .idle then some (Fifo_put s t ptr) else none
  | .putWrite t => putWrite s t
  | .flush t => if s.pc t = .idle then some (Fifo_flush s t) else none
  | .flushWrite t => if s.pc t = .flushing then some (flushWrite s t) else none

/-! ## What a step does -/

/-- The bytes of one write: a pointer, or the byte of a flush. -/
def cells : Option Word → List Cell
  | some ptr => ptr.bytes.map (⟨·, false⟩)
  | none => [⟨0xff, true⟩]

/-- The pointer that a thread read and has not returned. -/
def Pc.hand : Pc → List Word
  | .got ptr => [ptr]
  | _ => []

/-- A step moves one thread. It may write to the pipe, read from it, or return a
pointer, and only a call to `Fifo_put` brings a new pointer in. -/
inductive Moves : Fifo τ → Act τ → Fifo τ → Prop
  | quiet {s a} (t pc flush numBufs) (hhand : pc.hand = (s.pc t).hand)
      (hput : ∀ ptr, pc = .putting ptr → a = .put t ptr) :
      Moves s a { s with flush, numBufs, pc := Function.update s.pc t pc }
  | wrote {s a} (t w) (hhand : (s.pc t).hand = [])
      (hw : ∀ ptr, w = some ptr → s.pc t = .putting ptr) :
      Moves s a { s with pc := Function.update s.pc t .idle, pipe := s.pipe ++ cells w,
                         written := s.written ++ [w].reduceOption }
  | short {s} (t) (hhand : (s.pc t).hand = []) (hlen : s.pipe.length < 8) :
      Moves s (.read t) { s with pc := Function.update s.pc t .short, pipe := [] }
  | took {s} (t ptr) (hhand : (s.pc t).hand = []) (hlen : 8 ≤ s.pipe.length)
      (hbytes : ptr.bytes = (s.pipe.take 8).map Cell.byte) :
      Moves s (.read t) { s with pc := Function.update s.pc t (.got ptr), pipe := s.pipe.drop 8,
                                 taken := s.taken ++ [(t, ptr)] }
  | gave {s a} (t ptr numBufs) (hgot : s.pc t = .got ptr) :
      Moves s a { s with numBufs, pc := Function.update s.pc t .idle,
                         returned := s.returned ++ [(t, ptr)] }

theorem Moves.of_readPipe {s s' : Fifo τ} {t : τ} (ht : s.pc t = .tested)
    (ha : readPipe s t = some s') : Moves s (.read t) s' := by
  have hhand : (s.pc t).hand = [] := by rw [ht]; rfl
  unfold readPipe at ha
  simp only [List.length_map, List.length_take] at ha
  split_ifs at ha with hempty hlen <;> cases ha
  · exact .took t _ hhand (by omega) rfl
  · have hnil : s.pipe.drop 8 = [] := List.drop_eq_nil_of_le (by omega)
    rw [hnil]
    exact .short t hhand (by omega)

theorem Moves.of_getDone {s s' : Fifo τ} {t : τ} (ha : getDone s t = some s') :
    Moves s (.getDone t) s' := by
  unfold getDone at ha
  rcases ht : s.pc t with _ | _ | _ | ptr | ptr | _ <;> rw [ht] at ha <;> cases ha
  · exact .quiet t .idle false s.numBufs (by rw [ht]; rfl) nofun
  · exact .gave t ptr _ ht

theorem step_moves {s s' : Fifo τ} {a : Act τ} (ha : step s a = some s') : Moves s a s' := by
  cases a with
  | get t =>
    simp only [step, Fifo_get] at ha
    split_ifs at ha with ht hflush <;> cases ha
    · have hstays := Moves.quiet (s := s) (a := .get t) t (s.pc t) s.flush s.numBufs rfl
        (by rw [ht]; nofun)
      rwa [Function.update_eq_self] at hstays
    · exact .quiet t .tested s.flush s.numBufs (by rw [ht]; rfl) nofun
  | read t =>
    simp only [step] at ha
    split_ifs at ha with ht
    exact .of_readPipe ht ha
  | getDone t => exact .of_getDone ha
  | put t ptr =>
    simp only [step] at ha
    split_ifs at ha with ht
    cases ha
    exact .quiet t (.putting ptr) s.flush _ (by rw [ht]; rfl) (fun _ h => by cases h; rfl)
  | putWrite t =>
    simp only [step, putWrite] at ha
    rcases ht : s.pc t with _ | _ | _ | ptr | ptr | _ <;> rw [ht] at ha <;> cases ha
    exact .wrote t (some ptr) (by rw [ht]; rfl) (fun _ h => by cases h; exact ht)
  | flush t =>
    simp only [step] at ha
    split_ifs at ha with ht
    cases ha
    exact .quiet t .flushing true s.numBufs (by rw [ht]; rfl) nofun
  | flushWrite t =>
    simp only [step] at ha
    split_ifs at ha with ht
    cases ha
    have hsame : s.written = s.written ++ [none].reduceOption := (List.append_nil _).symm
    unfold flushWrite Fifo.setPc
    rw [hsame]
    exact .wrote t none (by rw [ht]; rfl) nofun

/-! ## What the threads were given -/

/-- The pointers of one thread. -/
def ofThread (t : τ) (log : List (τ × Word)) : List Word :=
  (log.filter (·.1 = t)).map Prod.snd

/-- Every thread returns what it took. -/
def HandsOver (s : Fifo τ) : Prop :=
  ∀ t, ofThread t s.returned ++ (s.pc t).hand = ofThread t s.taken

/-- The reads took the pointers in the order of the writes, leaving none out, and
every thread returns what it took. -/
def InOrder (s : Fifo τ) : Prop := s.taken.map Prod.snd <+: s.written ∧ HandsOver s

theorem mem_ofThread {log : List (τ × Word)} {t : τ} {ptr : Word} :
    ptr ∈ ofThread t log ↔ (t, ptr) ∈ log := by
  simp [ofThread]

theorem ofThread_snoc (t t' : τ) (log : List (τ × Word)) (ptr : Word) :
    ofThread t (log ++ [(t', ptr)]) = ofThread t log ++ if t' = t then [ptr] else [] := by
  by_cases ht : t' = t <;> simp [ofThread, ht]

/-- A return of 0 is with a pointer that a `Fifo_put` wrote. -/
theorem InOrder.was_put {s : Fifo τ} (h : InOrder s) {t : τ} {ptr : Word}
    (hr : (t, ptr) ∈ s.returned) : ptr ∈ s.written := by
  have htaken : ptr ∈ ofThread t s.taken := by
    rw [← h.2 t]
    exact List.mem_append_left _ (mem_ofThread.mpr hr)
  apply h.1.subset
  exact List.mem_map_of_mem (f := Prod.snd) (mem_ofThread.mp htaken)

theorem hand_update {s : Fifo τ} {t t' : τ} {pc : Pc} (h : pc.hand = (s.pc t).hand) :
    (Function.update s.pc t pc t').hand = (s.pc t').hand := by
  by_cases ht : t' = t
  · rw [ht, Function.update_self, h]
  · rw [Function.update_of_ne ht]

theorem HandsOver.moves {s s' : Fifo τ} {a : Act τ} (h : HandsOver s) (hm : Moves s a s') :
    HandsOver s' := by
  intro t'
  have ht := h t'
  cases hm with
  | quiet t pc flush numBufs hhand hput =>
    simp only
    rw [hand_update hhand, ht]
  | wrote t w hhand hw =>
    simp only
    rw [hand_update (by rw [hhand]; rfl), ht]
  | short t hhand hlen =>
    simp only
    rw [hand_update (by rw [hhand]; rfl), ht]
  | took t ptr hhand hlen hbytes =>
    simp only
    rw [ofThread_snoc, ← ht, List.append_assoc]
    by_cases htt : t = t'
    · rw [← htt, Function.update_self, hhand, if_pos rfl]
      rfl
    · rw [Function.update_of_ne (Ne.symm htt), if_neg htt, List.append_nil]
  | gave t ptr numBufs hgot =>
    simp only
    rw [ofThread_snoc, ← ht, List.append_assoc]
    by_cases htt : t = t'
    · rw [← htt, Function.update_self, hgot, if_pos rfl]
      rfl
    · rw [Function.update_of_ne (Ne.symm htt), if_neg htt, List.nil_append]

/-! ## What lies in the pipe -/

/-- The pipe holds whole writes, and the pointers among them are those that
were written and not read. -/
def Aligned (s : Fifo τ) : Prop :=
  ∃ writes : List (Option Word), s.pipe = writes.flatMap cells ∧
    s.written = s.taken.map Prod.snd ++ writes.reduceOption

/-- No read finds the byte of a flush among the first eight of eight bytes or
more. -/
def NoFlushAhead (s : Fifo τ) (a : Act τ) : Prop :=
  ∀ t, a = .read t → 8 ≤ s.pipe.length → ∀ c ∈ s.pipe.take 8, c.flush = false

@[simp]
theorem cells_some_length (ptr : Word) : (cells (some ptr)).length = 8 := by
  simp [cells, ptr.eight]

theorem cells_some_bytes (ptr : Word) : (cells (some ptr)).map Cell.byte = ptr.bytes := by
  simp [cells, Function.comp_def]

theorem Word.ext_bytes {p q : Word} (h : p.bytes = q.bytes) : p = q := by
  cases p
  cases q
  cases h
  rfl

/-- In less than eight bytes there is no pointer. -/
theorem reduceOption_of_short {writes : List (Option Word)}
    (h : (writes.flatMap cells).length < 8) : writes.reduceOption = [] := by
  induction writes with
  | nil => rfl
  | cons w writes ih =>
    rw [List.flatMap_cons, List.length_append] at h
    cases w with
    | none =>
      rw [List.reduceOption_cons_of_none]
      exact ih (by omega)
    | some ptr =>
      rw [cells_some_length] at h
      omega

/-- Eight bytes with no flush among them are those of the oldest pointer. -/
theorem oldest_ahead {writes : List (Option Word)} (hlen : 8 ≤ (writes.flatMap cells).length)
    (hclear : ∀ c ∈ (writes.flatMap cells).take 8, c.flush = false) :
    ∃ ptr rest, writes = some ptr :: rest := by
  rcases writes with _ | ⟨_ | ptr, rest⟩
  · simp at hlen
  · exact absurd (hclear ⟨0xff, true⟩ (by simp [cells])) (by simp)
  · exact ⟨ptr, rest, rfl⟩

theorem Aligned.moves {s s' : Fifo τ} {a : Act τ} (h : Aligned s) (hok : NoFlushAhead s a)
    (hm : Moves s a s') : Aligned s' := by
  obtain ⟨writes, hpipe, hwritten⟩ := h
  cases hm with
  | quiet t pc flush numBufs hhand hput => exact ⟨writes, hpipe, hwritten⟩
  | wrote t w hhand hw =>
    refine ⟨writes ++ [w], ?_, ?_⟩
    · simp only
      rw [hpipe, List.flatMap_append, List.flatMap_singleton]
    · simp only
      rw [hwritten, List.reduceOption_append, List.append_assoc]
  | short t hhand hlen =>
    refine ⟨[], rfl, ?_⟩
    rw [hpipe] at hlen
    rw [reduceOption_of_short hlen] at hwritten
    exact hwritten
  | took t ptr hhand hlen hbytes =>
    have hclear := hok t rfl hlen
    rw [hpipe] at hlen hclear hbytes
    obtain ⟨oldest, rest, rfl⟩ := oldest_ahead hlen hclear
    rw [List.flatMap_cons] at hbytes hpipe
    rw [List.take_left' (cells_some_length oldest), cells_some_bytes] at hbytes
    refine ⟨rest, ?_, ?_⟩
    · simp only
      rw [hpipe, List.drop_left' (cells_some_length oldest)]
    · simp only
      rw [hwritten, Word.ext_bytes hbytes, List.reduceOption_cons_of_some]
      simp
  | gave t ptr numBufs hgot => exact ⟨writes, hpipe, hwritten⟩

theorem Aligned.inOrder {s : Fifo τ} (h : Aligned s) (hhands : HandsOver s) : InOrder s := by
  obtain ⟨writes, -, hwritten⟩ := h
  exact ⟨⟨writes.reduceOption, hwritten.symm⟩, hhands⟩

/-! ## When a flush is read as part of a pointer -/

/-- The pointer that no allocation gives. -/
def allOnes : Word := ⟨List.replicate 8 0xff, rfl⟩

/-- No `Fifo_put` wrote, or is about to write, the pointer of ones. -/
def NoOnes (s : Fifo τ) : Prop :=
  (∀ ptr ∈ s.written, ptr ≠ allOnes) ∧ ∀ t ptr, s.pc t = .putting ptr → ptr ≠ allOnes

theorem NoOnes.moves {s s' : Fifo τ} {a : Act τ} (h : NoOnes s)
    (hput : ∀ t ptr, a = .put t ptr → ptr ≠ allOnes) (hm : Moves s a s') : NoOnes s' := by
  have hpc : ∀ t pc, (∀ ptr, pc = .putting ptr → ptr ≠ allOnes) →
      ∀ t' ptr, Function.update s.pc t pc t' = .putting ptr → ptr ≠ allOnes := by
    intro t pc hnew t' ptr ht'
    by_cases htt : t' = t
    · rw [htt, Function.update_self] at ht'
      exact hnew ptr ht'
    · rw [Function.update_of_ne htt] at ht'
      exact h.2 t' ptr ht'
  cases hm with
  | quiet t pc flush numBufs hhand hp => exact ⟨h.1, hpc t pc fun ptr hx => hput t ptr (hp ptr hx)⟩
  | wrote t w hhand hw =>
    refine ⟨?_, hpc t .idle nofun⟩
    intro ptr hptr
    rcases List.mem_append.mp hptr with hold | hnew
    · exact h.1 ptr hold
    · rw [List.reduceOption_mem_iff, List.mem_singleton] at hnew
      exact h.2 t ptr (hw ptr hnew.symm)
  | short t hhand hlen => exact ⟨h.1, hpc t .short nofun⟩
  | took t ptr hhand hlen hbytes => exact ⟨h.1, hpc t (.got ptr) nofun⟩
  | gave t ptr numBufs hgot => exact ⟨h.1, hpc t .idle nofun⟩

/-- A list that is unchanged when copies of one element are pushed in at its head
is made of that element. -/
theorem eq_of_shifted {α : Type*} {l r : List α} {a : α} {j : Nat}
    (h : (List.replicate (j + 1) a ++ l ++ r).take l.length = l) (i : Nat) (hi : i < l.length) :
    l[i]? = some a := by
  induction i using Nat.strong_induction_on with
  | _ i ih =>
    have hget : l[i]? = (List.replicate (j + 1) a ++ (l ++ r))[i]? := by
      rw [← List.append_assoc]
      calc l[i]? = ((List.replicate (j + 1) a ++ l ++ r).take l.length)[i]? := by rw [h]
        _ = _ := List.getElem?_take_of_lt hi
    by_cases hij : i < j + 1
    · rw [hget, List.getElem?_append_left (by simpa using hij), List.getElem?_replicate_of_lt hij]
    · rw [hget, List.getElem?_append_right (by simpa using hij), List.length_replicate,
        List.getElem?_append_left (by omega)]
      exact ih (i - (j + 1)) (by omega) (by omega)

/-- Before the oldest pointer in the pipe there are only flushes. -/
theorem first_pointer {writes : List (Option Word)} {ptr : Word} {more : List Word}
    (h : writes.reduceOption = ptr :: more) :
    ∃ j rest, writes.flatMap cells = List.replicate j ⟨0xff, true⟩ ++ cells (some ptr) ++ rest := by
  induction writes with
  | nil => cases h
  | cons w writes ih =>
    cases w with
    | none =>
      obtain ⟨j, rest, hj⟩ := ih h
      refine ⟨j + 1, rest, ?_⟩
      rw [List.flatMap_cons, hj]
      rfl
    | some oldest =>
      rw [List.reduceOption_cons_of_some, List.cons.injEq] at h
      exact ⟨0, writes.flatMap cells, by rw [← h.1]; rfl⟩

omit [DecidableEq τ] in
/-- To take eight bytes with a flush among them for a pointer, in front of any
pointer but that of ones, is to lose the order. -/
theorem Aligned.not_prefix {s : Fifo τ} {ptr : Word} (h : Aligned s) (hones : NoOnes s)
    (hbytes : ptr.bytes = (s.pipe.take 8).map Cell.byte)
    (hflush : ∃ c ∈ s.pipe.take 8, c.flush = true) :
    ¬ s.taken.map Prod.snd ++ [ptr] <+: s.written := by
  obtain ⟨writes, hpipe, hwritten⟩ := h
  intro hprefix
  rw [hwritten, List.prefix_append_right_inj] at hprefix
  obtain ⟨more, hmore⟩ := hprefix
  obtain ⟨j, rest, hj⟩ := first_pointer hmore.symm
  rw [hpipe, hj] at hbytes hflush
  rcases j with _ | j
  · obtain ⟨c, hc, hcflush⟩ := hflush
    rw [List.replicate_zero, List.nil_append, List.take_left' (cells_some_length ptr)] at hc
    obtain ⟨b, -, rfl⟩ := List.mem_map.mp hc
    cases hcflush
  · have hshift : (List.replicate (j + 1) 0xff ++ ptr.bytes ++ rest.map Cell.byte).take
        ptr.bytes.length = ptr.bytes := by
      rw [ptr.eight]
      conv_rhs => rw [hbytes]
      rw [List.map_take, List.map_append, List.map_append, List.map_replicate, cells_some_bytes]
    have hall : ptr.bytes = List.replicate 8 0xff := by
      rw [List.eq_replicate_iff]
      refine ⟨ptr.eight, ?_⟩
      intro b hb
      obtain ⟨i, hi⟩ := List.mem_iff_getElem?.mp hb
      have hlt := (List.getElem?_eq_some_iff.mp hi).1
      rw [eq_of_shifted hshift i hlt] at hi
      exact (Option.some.inj hi).symm
    apply hones.1 ptr
    · rw [hwritten, ← hmore]
      simp
    · exact Word.ext_bytes hall

/-- A step from a pipe of whole writes keeps the order exactly when it reads no
flush among eight bytes. -/
theorem step_inOrder_iff {s s' : Fifo τ} {a : Act τ} (h : Aligned s) (hhands : HandsOver s)
    (hones : NoOnes s) (ha : step s a = some s') :
    (∀ u ∈ step s a, InOrder u) ↔ NoFlushAhead s a := by
  have hm := step_moves ha
  rw [ha]
  refine ⟨?_, ?_⟩
  · intro hin t hat hlen
    by_contra hflush
    push Not at hflush
    have hflush' : ∃ c ∈ s.pipe.take 8, c.flush = true := by simpa using hflush
    subst hat
    obtain ⟨ptr, hbytes, ht⟩ : ∃ ptr : Word, ptr.bytes = (s.pipe.take 8).map Cell.byte ∧
        s' = { s with pc := Function.update s.pc t (.got ptr), pipe := s.pipe.drop 8,
                      taken := s.taken ++ [(t, ptr)] } := by
      simp only [step, readPipe, List.length_map, List.length_take] at ha
      split_ifs at ha with hpc hempty height
      · exact ⟨_, rfl, (Option.some.inj ha).symm⟩
      · omega
    have hprefix := (hin s' rfl).1
    rw [ht] at hprefix
    simp only [List.map_append, List.map_cons, List.map_nil] at hprefix
    exact h.not_prefix hones hbytes hflush' hprefix
  · intro hok u hu
    cases hu
    exact (h.moves hok hm).inOrder (hhands.moves hm)

/-- In a run whose reads never find a flush among eight bytes, the gets give every
pointer once and in the order of the puts. For pointers that are not all ones,
no other run does so at every step. -/
theorem gets_in_order_iff {as : List (Act τ)} {u : Fifo τ}
    (hr : run step Fifo_create as = some u) :
    (Guarded step NoFlushAhead Fifo_create as →
        InOrder u ∧ ∀ t ptr, (t, ptr) ∈ u.returned → ptr ∈ u.written) ∧
      ((∀ t ptr, .put t ptr ∈ as → ptr ≠ allOnes) →
        (Guarded step (fun s a => ∀ s' ∈ step s a, InOrder s') Fifo_create as ↔
          Guarded step NoFlushAhead Fifo_create as)) := by
  have hcreated : Aligned (Fifo_create : Fifo τ) := ⟨[], rfl, rfl⟩
  have hempty : HandsOver (Fifo_create : Fifo τ) := fun _ => rfl
  refine ⟨?_, ?_⟩
  · intro hg
    obtain ⟨haligned, hhands⟩ : Aligned u ∧ HandsOver u :=
      run_invariant_guarded (I := fun s => Aligned s ∧ HandsOver s)
        (fun s a s' h hok ha => ⟨h.1.moves hok (step_moves ha), h.2.moves (step_moves ha)⟩)
        ⟨hcreated, hempty⟩ hg hr
    have hin := haligned.inOrder hhands
    exact ⟨hin, fun t ptr => hin.was_put⟩
  · intro hput
    apply guarded_congr (I := fun s => Aligned s ∧ HandsOver s ∧ NoOnes s) ?_ ?_ ?_ hr
    · intro s a ha s' h hstep
      exact step_inOrder_iff h.1 h.2.1 h.2.2 hstep
    · intro s a ha s' h hok hstep
      have hm := step_moves hstep
      exact ⟨h.1.moves hok hm, h.2.1.moves hm,
        h.2.2.moves (fun t ptr hat => hput t ptr (hat ▸ ha)) hm⟩
    · exact ⟨hcreated, hempty, nofun, nofun⟩

/-- The bytes 1 to 8. -/
def oneToEight : Word := ⟨[1, 2, 3, 4, 5, 6, 7, 8], rfl⟩

/-- A thread that was past the test of the flag reads the byte of the flush and
seven of the pointer behind it, and returns them as a pointer. -/
theorem flush_read_as_pointer :
    ¬ ∀ (as : List (Act (Fin 3))) (u : Fifo (Fin 3)), run step Fifo_create as = some u →
      ∀ t ptr, (t, ptr) ∈ u.returned → ptr ∈ u.written := by
  intro h
  have hmade : ⟨[0xff, 1, 2, 3, 4, 5, 6, 7], rfl⟩ ∈ [oneToEight] :=
    h [.get 0, .flush 1, .flushWrite 1, .put 2 oneToEight, .putWrite 2, .read 0, .getDone 0] _ rfl 0
      ⟨[0xff, 1, 2, 3, 4, 5, 6, 7], rfl⟩ (by decide)
  exact absurd hmade (by decide)

/-- The same threads when the reader comes first: it returns -1 and clears the
flag, and the next read is of the pointer. -/
theorem flush_read_alone :
    ∃ u : Fifo (Fin 3), run step Fifo_create [.get 0, .flush 1, .flushWrite 1, .read 0, .getDone 0,
        .put 2 oneToEight, .putWrite 2, .get 0, .read 0, .getDone 0] = some u ∧
      u.returned = [(0, oneToEight)] ∧ u.flush = false ∧
      (Guarded step (fun s a => ∀ s' ∈ step s a, InOrder s') Fifo_create
          [.get (0 : Fin 3), .flush 1, .flushWrite 1, .read 0, .getDone 0,
            .put 2 oneToEight, .putWrite 2, .get 0, .read 0, .getDone 0] ↔
        Guarded step NoFlushAhead Fifo_create
          [.get (0 : Fin 3), .flush 1, .flushWrite 1, .read 0, .getDone 0,
            .put 2 oneToEight, .putWrite 2, .get 0, .read 0, .getDone 0]) :=
  ⟨_, rfl, by decide, by decide, (gets_in_order_iff rfl).2 (by
    intro t ptr hput
    obtain ⟨-, rfl⟩ : t = 2 ∧ ptr = oneToEight := by simpa using hput
    decide)⟩

end udp_service.hs_fifo
