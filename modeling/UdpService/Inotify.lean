-- The watch on the file of the logger (inotify.c): the events that `read` packs into a
-- buffer, and the reloads that they bring.
import UdpService.LogConfig
import UdpService.Lib.LittleEndian

open access blocks cstrings little_endian runs

namespace udp_service

namespace inotify

open log_config hs_config_file_reader

/-! ## The loop over a buffer -/

/-- `sizeof buf`, and `sizeof(struct inotify_event)`: `wd`, `mask`, `cookie` and `len`. -/
@[simp] abbrev BUF_SIZE : Nat := 4096
@[simp] abbrev EVENT_SIZE : Nat := 16

def IN_CLOSE_WRITE : Nat := 8

/-- `!strcmp(s, t)` for a string `s`. It reads `t` up to the first difference. -/
def strcmp : List UInt8 → List UInt8 → Except Fault Bool
  | _, [] => .error .load
  | [], c :: _ => .ok (c = 0)
  | d :: s, c :: t => if c = d then strcmp s t else .ok false

/-- The calls of `hslog_init` so far, and the logger. -/
structure Watch where
  calls : Nat
  logger : Logger

section handle_events

variable (filename : List UInt8) (mutexOk : Nat → Bool) (files : Nat → Option (List UInt8))

/-- The call of `hslog_init`, on the file as it is then. `mutexOk` says of each call whether
those for the mutex go well. -/
def reload (s : Watch) : Except Fault Watch :=
  (hslog_init (mutexOk s.calls) UDP_SERVICE_LOG (files s.calls) 0 true s.logger).map fun logger =>
    { calls := s.calls + 1, logger }

/-- The body of the loop, for the event at `ptr`: the next `ptr`. -/
def handle_event (buf : Buffer UInt8 BUF_SIZE) (ptr : Nat) (s : Watch) :
    Except Fault (Nat × Watch) := do
  let len ← (load buf (ptr + 12) 4).map ofLe
  let mask ← (load buf (ptr + 4) 4).map ofLe
  let next := ptr + (EVENT_SIZE + len)
  if len ≠ 0 ∧ mask &&& IN_CLOSE_WRITE ≠ 0 then
    let same ← strcmp filename ((List.ofFn buf).drop (ptr + EVENT_SIZE))
    if same then (reload mutexOk files s).map fun s => (next, s) else .ok (next, s)
  else .ok (next, s)

/-- The loop over the first `len` bytes of `buf`. -/
def event_loop (buf : Buffer UInt8 BUF_SIZE) (len : Nat) :
    Nat → Nat → Watch → Except Fault Watch
  | 0, _, _ => .error .fuel
  | fuel + 1, ptr, s =>
    if ptr < len then
      match handle_event filename mutexOk files buf ptr s with
      | .error e => .error e
      | .ok (ptr, s) => event_loop buf len fuel ptr s
    else .ok s

/-- `handle_events`, for what `read` gives before it has nothing more. -/
def handle_events : List (List UInt8) → Buffer UInt8 BUF_SIZE → Watch → Except Fault Watch
  | [], _, s => .ok s
  | d :: ds, buf, s => do
    let len := (d.take BUF_SIZE).length
    let buf ← store buf 0 (d.take BUF_SIZE)
    if len = 0 then .ok s
    else
      let s ← event_loop filename mutexOk files buf len (len + 1) 0 s
      handle_events ds buf s

end handle_events

/-! ## The events of the kernel -/

/-- An event: the name in it is empty, or it ends with a NUL and more of them. -/
structure KernelEvent where
  wd : BitVec 32
  mask : BitVec 32
  cookie : BitVec 32
  name : List UInt8
  pad : Nat
  nul_not_mem : 0 ∉ name
  short : name.length + pad + 1 < 2 ^ 32

/-- The field of the name. An event without one has no bytes there. -/
def KernelEvent.field (e : KernelEvent) : List UInt8 :=
  if e.name = [] then [] else e.name ++ List.replicate (e.pad + 1) 0

def KernelEvent.bytes (e : KernelEvent) : List UInt8 :=
  le 4 e.wd.toNat ++ (le 4 e.mask.toNat ++ (le 4 e.cookie.toNat ++
    (le 4 e.field.length ++ e.field)))

/-- A file with the name was closed after it was written. -/
def KernelEvent.saves (filename : List UInt8) (e : KernelEvent) : Bool :=
  e.name = filename ∧ e.name ≠ [] ∧ e.mask.toNat &&& IN_CLOSE_WRITE ≠ 0

/-- The events of one `read`. The kernel gives whole events only, one at least. -/
structure Batch where
  events : List KernelEvent
  some_event : events ≠ []
  fits : (events.flatMap KernelEvent.bytes).length ≤ BUF_SIZE

def Batch.bytes (b : Batch) : List UInt8 := b.events.flatMap KernelEvent.bytes

/-- How many events of the batches save the file. -/
def saved (filename : List UInt8) (batches : List Batch) : Nat :=
  (batches.flatMap Batch.events).countP (KernelEvent.saves filename)

theorem bytes_length (e : KernelEvent) : e.bytes.length = EVENT_SIZE + e.field.length := by
  simp only [KernelEvent.bytes, List.length_append, le_length, EVENT_SIZE]
  omega

theorem field_length_lt (e : KernelEvent) : e.field.length < 2 ^ 32 := by
  have hshort := e.short
  unfold KernelEvent.field
  split_ifs
  · exact Nat.two_pow_pos 32
  · rw [List.length_append, List.length_replicate]
    omega

/-- The name is compared up to its end, or to where it differs. -/
theorem strcmp_name {filename name : List UInt8} (hf : 0 ∉ filename) (hn : 0 ∉ name)
    (rest : List UInt8) : strcmp filename (name ++ 0 :: rest) = .ok (decide (name = filename)) := by
  induction filename generalizing name with
  | nil =>
    rcases name with _ | ⟨c, name⟩
    · rfl
    · have hc : c ≠ 0 := fun h => hn (h ▸ List.mem_cons_self)
      simp [strcmp, hc]
  | cons d filename ih =>
    rcases name with _ | ⟨c, name⟩
    · have hd : (0 : UInt8) ≠ d := fun h => hf (h ▸ List.mem_cons_self)
      simp [strcmp, hd]
    · have hih := ih (fun h => hf (List.mem_cons_of_mem _ h))
        (fun h => hn (List.mem_cons_of_mem _ h))
      rw [List.cons_append, strcmp]
      by_cases hcd : c = d
      · rw [if_pos hcd, hih]
        simp [hcd]
      · rw [if_neg hcd]
        simp [hcd]

/-! ## One event -/

section event

variable {filename : List UInt8} {mutexOk : Nat → Bool} {files : Nat → Option (List UInt8)}
  {buf : Buffer UInt8 BUF_SIZE} {ptr : Nat} {e : KernelEvent} {rest : List UInt8}

theorem load_field {pre field post : List UInt8} (off : Nat)
    (h : (List.ofFn buf).drop ptr = pre ++ (field ++ post)) (hpre : pre.length = off)
    (hfield : field.length = 4) : load buf (ptr + off) 4 = .ok field := by
  have hlength := congrArg List.length h
  simp only [List.length_drop, List.length_ofFn, List.length_append] at hlength
  rw [load_ok buf (by omega), ← List.drop_drop, h, List.drop_left' hpre, List.take_left' hfield]

/-- The comparison of the name in an event that has one. -/
theorem strcmp_field (hf : 0 ∉ filename) (hname : e.name ≠ []) (rest : List UInt8) :
    strcmp filename (e.field ++ rest) = .ok (decide (e.name = filename)) := by
  have hfield : e.field ++ rest = e.name ++ 0 :: (List.replicate e.pad 0 ++ rest) := by
    rw [KernelEvent.field, if_neg hname, List.replicate_succ, List.append_assoc, List.cons_append]
  rw [hfield]
  exact strcmp_name hf e.nul_not_mem _

/-- An event that stands at `ptr` is handled: it brings a reload when the file was saved, and
`ptr` goes on to what is behind it. -/
theorem handle_event_at (hf : 0 ∉ filename) (h : (List.ofFn buf).drop ptr = e.bytes ++ rest)
    (s : Watch) : handle_event filename mutexOk files buf ptr s =
      (if e.saves filename then reload mutexOk files s else .ok s).map fun s =>
        (ptr + e.bytes.length, s) := by
  have hmaskAt : (List.ofFn buf).drop ptr = le 4 e.wd.toNat ++ (le 4 e.mask.toNat ++
      (le 4 e.cookie.toNat ++ (le 4 e.field.length ++ (e.field ++ rest)))) := by
    rw [h]
    simp only [KernelEvent.bytes, List.append_assoc]
  have hlenAt : (List.ofFn buf).drop ptr = (le 4 e.wd.toNat ++ (le 4 e.mask.toNat ++
      le 4 e.cookie.toNat)) ++ (le 4 e.field.length ++ (e.field ++ rest)) := by
    rw [hmaskAt]
    simp only [List.append_assoc]
  have hnameAt : (List.ofFn buf).drop ptr = (le 4 e.wd.toNat ++ (le 4 e.mask.toNat ++
      (le 4 e.cookie.toNat ++ le 4 e.field.length))) ++ (e.field ++ rest) := by
    rw [hmaskAt]
    simp only [List.append_assoc]
  have hmask := load_field 4 hmaskAt (le_length _ _) (le_length _ _)
  have hlen := load_field 12 hlenAt (by simp) (le_length _ _)
  have hname : (List.ofFn buf).drop (ptr + EVENT_SIZE) = e.field ++ rest := by
    rw [← List.drop_drop, hnameAt, List.drop_left' (by simp)]
  have hlenBack : ofLe (le 4 e.field.length) = e.field.length := ofLe_le_of_lt (field_length_lt e)
  have hmaskBack : ofLe (le 4 e.mask.toNat) = e.mask.toNat := ofLe_le_of_lt e.mask.isLt
  unfold handle_event
  rw [hlen, hmask, hname]
  simp only [Except.map, bind, Except.bind, hlenBack, hmaskBack, bytes_length]
  by_cases hnone : e.name = []
  · have hempty : e.field = [] := if_pos hnone
    have hno : e.saves filename = false := by simp [KernelEvent.saves, hnone]
    rw [if_neg fun h => h.1 (by rw [hempty]; rfl), hno]
    rfl
  have hne : e.field.length ≠ 0 := by
    rw [KernelEvent.field, if_neg hnone, List.length_append, List.length_replicate]
    omega
  by_cases hbit : e.mask.toNat &&& IN_CLOSE_WRITE ≠ 0
  · rw [if_pos ⟨hne, hbit⟩, strcmp_field hf hnone]
    by_cases hsame : e.name = filename
    · have hyes : e.saves filename = true := decide_eq_true ⟨hsame, hnone, hbit⟩
      simp only [hyes, decide_eq_true hsame, if_true]
    · have hno : e.saves filename = false := decide_eq_false fun h => hsame h.1
      simp only [hno, decide_eq_false hsame, Bool.false_eq_true, if_false]
  · have hno : e.saves filename = false := decide_eq_false fun h => hbit h.2.2
    rw [if_neg fun h => hbit h.2, hno]
    rfl

end event

/-! ## All events -/

/-- So many reloads, one after the other. -/
def reloads (mutexOk : Nat → Bool) (files : Nat → Option (List UInt8)) :
    Nat → Watch → Except Fault Watch
  | 0, s => .ok s
  | n + 1, s => do
    let s ← reload mutexOk files s
    reloads mutexOk files n s

section loop

variable {filename : List UInt8} {mutexOk : Nat → Bool} {files : Nat → Option (List UInt8)}

theorem reloads_add (m n : Nat) (s : Watch) :
    reloads mutexOk files (m + n) s = reloads mutexOk files m s >>= reloads mutexOk files n := by
  induction m generalizing s with
  | zero =>
    rw [Nat.zero_add]
    rfl
  | succ m ih =>
    rw [Nat.succ_add, reloads, reloads]
    rcases reload mutexOk files s with x | s'
    · rfl
    · exact ih s'

theorem event_loop_events (hf : 0 ∉ filename) {buf : Buffer UInt8 BUF_SIZE} {rest : List UInt8}
    (events : List KernelEvent) {fuel ptr len : Nat} (hfuel : events.length < fuel)
    (h : (List.ofFn buf).drop ptr = events.flatMap KernelEvent.bytes ++ rest)
    (hlen : len = ptr + (events.flatMap KernelEvent.bytes).length) (s : Watch) :
    event_loop filename mutexOk files buf len fuel ptr s =
      reloads mutexOk files (events.countP (KernelEvent.saves filename)) s := by
  induction events generalizing fuel ptr s with
  | nil =>
    obtain ⟨fuel, rfl⟩ := Nat.exists_eq_succ_of_ne_zero (Nat.ne_of_gt hfuel)
    have hend : ¬ ptr < len := by
      rw [hlen]
      exact Nat.lt_irrefl ptr
    rw [event_loop, if_neg hend]
    rfl
  | cons e events ih =>
    obtain ⟨fuel, rfl⟩ := Nat.exists_eq_succ_of_ne_zero (Nat.ne_of_gt (Nat.zero_lt_of_lt hfuel))
    rw [List.flatMap_cons, List.append_assoc] at h
    rw [List.flatMap_cons, List.length_append] at hlen
    have hnext : (List.ofFn buf).drop (ptr + e.bytes.length) =
        events.flatMap KernelEvent.bytes ++ rest := by
      rw [← List.drop_drop, h, List.drop_left]
    have hpos := bytes_length e
    simp only [EVENT_SIZE] at hpos
    rw [event_loop, if_pos (by omega), handle_event_at hf h]
    have htail := fun s => ih (Nat.lt_of_succ_lt_succ hfuel) hnext (by omega) s
    by_cases hsaves : e.saves filename
    · rw [if_pos hsaves, List.countP_cons_of_pos hsaves, reloads]
      rcases reload mutexOk files s with x | s'
      · rfl
      · exact htail s'
    · rw [if_neg hsaves, List.countP_cons_of_neg hsaves]
      exact htail s

theorem length_le_bytes (events : List KernelEvent) :
    events.length ≤ (events.flatMap KernelEvent.bytes).length := by
  induction events with
  | nil => exact Nat.le_refl 0
  | cons e events ih =>
    have hpos := bytes_length e
    simp only [EVENT_SIZE] at hpos
    rw [List.flatMap_cons, List.length_append, List.length_cons]
    omega

/-- The events of all batches, whatever the buffer held before. -/
theorem handle_batches (hf : 0 ∉ filename) (batches : List Batch) (buf : Buffer UInt8 BUF_SIZE)
    (s : Watch) : handle_events filename mutexOk files (batches.map Batch.bytes) buf s =
      reloads mutexOk files (saved filename batches) s := by
  unfold saved
  induction batches generalizing buf s with
  | nil => rfl
  | cons b batches ih =>
    have hwhole : b.bytes.take BUF_SIZE = b.bytes := List.take_of_length_le b.fits
    have hroom : 0 + b.bytes.length ≤ BUF_SIZE := by
      rw [Nat.zero_add]
      exact b.fits
    have hsome : b.events.length ≤ b.bytes.length := length_le_bytes b.events
    have hne : b.bytes.length ≠ 0 := by
      have hpos := List.length_pos_iff.mpr b.some_event
      omega
    have hfront := Buffer.take_write buf (l := b.bytes) b.fits
    have hbuf : (List.ofFn (buf.write 0 b.bytes)).drop 0 =
        b.bytes ++ (List.ofFn (buf.write 0 b.bytes)).drop b.bytes.length := by
      rw [List.drop_zero]
      conv_lhs => rw [← List.take_append_drop b.bytes.length (List.ofFn _), hfront]
    have hloop : event_loop filename mutexOk files (buf.write 0 b.bytes) b.bytes.length
        (b.bytes.length + 1) 0 s =
        reloads mutexOk files (b.events.countP (KernelEvent.saves filename)) s :=
      event_loop_events hf b.events (Nat.lt_succ_of_le hsome) hbuf (Nat.zero_add _).symm s
    rw [List.map_cons, handle_events, hwhole, store_ok buf hroom, List.flatMap_cons,
      List.countP_append, reloads_add]
    simp only [bind, Except.bind, hne, if_false]
    rw [hloop]
    rcases reloads mutexOk files (b.events.countP (KernelEvent.saves filename)) s with x | s'
    · rfl
    · exact ih _ s'

theorem reloads_run {n : Nat} {s s' : Watch} (h : reloads mutexOk files n s = .ok s') :
    s'.calls = s.calls + n ∧ run step s.logger
      ((List.range' s.calls n).map fun k => .reload (mutexOk k) (files k)) = some s'.logger := by
  induction n generalizing s with
  | zero =>
    cases h
    exact ⟨rfl, rfl⟩
  | succ n ih =>
    obtain ⟨v, hv, hrest⟩ := bind_eq_ok h
    obtain ⟨hcalls, hrun⟩ := ih hrest
    unfold reload at hv
    rcases hinit : hslog_init (mutexOk s.calls) UDP_SERVICE_LOG (files s.calls) 0 true
        s.logger with x | l
    · rw [hinit] at hv
      cases hv
    · rw [hinit] at hv
      cases hv
      have hfirst : s'.calls = s.calls + 1 + n := hcalls
      refine ⟨by omega, ?_⟩
      rw [List.range'_succ, List.map_cons, run_cons_eq_some]
      exact ⟨l, by rw [step, hinit]; rfl, hrun⟩

end loop

/-- What the watch makes of the events of the kernel, in whatever batches they come and
whatever the buffer held: one call of `hslog_init` for each event that saves the file, and none
for another. These are reloads of the logger, and the configuration is then that of the file
as it was at the last of them. -/
theorem one_reload_for_each_save {m : Nat} (filename : CString m) (mutexOk : Nat → Bool)
    (files : Nat → Option (List UInt8)) (batches : List Batch) (buf : Buffer UInt8 BUF_SIZE)
    (s : Watch) :
    handle_events filename.bytes mutexOk files (batches.map Batch.bytes) buf s =
        reloads mutexOk files (saved filename.bytes batches) s ∧
      ∀ s', reloads mutexOk files (saved filename.bytes batches) s = .ok s' →
        s'.calls = s.calls + saved filename.bytes batches ∧
        run step s.logger ((List.range' s.calls (saved filename.bytes batches)).map
          fun k => .reload (mutexOk k) (files k)) = some s'.logger ∧
        (0 < saved filename.bytes batches →
          reloaded (.reload (mutexOk (s'.calls - 1)) (files (s'.calls - 1))) = some s'.logger.g_hslogCfg) := by
  refine ⟨handle_batches filename.nul_not_mem batches buf s, ?_⟩
  intro s' h
  obtain ⟨hcalls, hrun⟩ := reloads_run h
  refine ⟨hcalls, hrun, ?_⟩
  intro hpos
  obtain ⟨k, hk⟩ := Nat.exists_eq_succ_of_ne_zero (Nat.ne_of_gt hpos)
  have hlast : s'.calls - 1 = s.calls + k := by omega
  have hcfg := (run_settings hrun).1
  rw [hk, List.range'_1_concat, List.map_append, List.filterMap_append] at hcfg
  simp only [List.map_cons, List.map_nil, List.filterMap_cons, reloaded, List.filterMap_nil,
    List.getLast?_concat, Option.getD_some] at hcfg
  rw [hlast, hcfg]
  rfl

/-- The file is opened, written and closed, and another file is closed after it. -/
def threeEvents : List Batch :=
  [{ events := [⟨1, 0x20, 0, chars "a.cfg", 2, by decide +kernel, by decide +kernel⟩]
     some_event := nofun, fits := by decide +kernel },
    { events := [⟨1, 8, 0, chars "a.cfg", 2, by decide +kernel, by decide +kernel⟩,
        ⟨1, 8, 0, chars "hosts", 2, by decide +kernel, by decide +kernel⟩]
      some_event := nofun, fits := by decide +kernel }]

theorem the_second_of_three_events_reloads : ∃ s',
    handle_events (chars "a.cfg") (fun _ => true) (fun _ => none) (threeEvents.map Batch.bytes)
      (fun _ => 0) ⟨0, zeroed (defaults hs_log.noName 3 true)⟩ = .ok s' ∧
    s'.calls = 1 ∧ reloaded (.reload true none) = some s'.logger.g_hslogCfg := by
  obtain ⟨hhandled, hreloads⟩ := one_reload_for_each_save
    (m := 8) ⟨chars "a.cfg", by decide +kernel, by decide +kernel⟩ (fun _ => true) (fun _ => none)
    threeEvents (fun _ => 0) ⟨0, zeroed (defaults hs_log.noName 3 true)⟩
  have hone : saved (chars "a.cfg") threeEvents = 1 := by decide +kernel
  simp only [hone] at hhandled hreloads
  obtain ⟨hcalls, -, hconfig⟩ := hreloads _ rfl
  exact ⟨_, hhandled, hcalls, hconfig Nat.one_pos⟩

end inotify

end udp_service
