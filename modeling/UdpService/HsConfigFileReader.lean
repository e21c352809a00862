-- The configuration file (hs_config_file_reader.c): the lookup of a parameter in the
-- lines `name:value` of a file, and the three ports that the service reads from it
-- (`get_configuration` in hs_udp_service.c).
import UdpService.Lib.CStrings

open cstrings

namespace udp_service

namespace hs_config_file_reader

/-! ## The lookup -/

/-- `sizeof(value)`. -/
@[simp] def VALUE_SIZE : Nat := 512

/-- `fgets` for at most `n` characters: those it read, the rest of the file, and
whether it came to the end of the file. -/
def fgets : Nat → List UInt8 → List UInt8 × List UInt8 × Bool
  | 0, file => ([], file, false)
  | _ + 1, [] => ([], [], true)
  | n + 1, c :: file =>
    if c = 10 then ([c], file, false)
    else (c :: (fgets n file).1, (fgets n file).2.1, (fgets n file).2.2)

/-- How a turn of the loop ends: the function returns `ptr`, or the loop goes on with
`ptr` at the name that did not match. -/
inductive Turn
  | leave (ptr : Option (List UInt8))
  | next (ptr : List UInt8)

/-- The body of the loop once `fgets` has read into `value`. `strtok` is `strtok_r` with
a saved pointer of its own. -/
def config_turn (value param_name : List UInt8) : Option Turn :=
  match strtok_r 58 (value.set (strcspn value [10, 13]) 0) with
  | none => none
  | some (none, _) => some (.leave none)
  | some (some ptr, saved) =>
    if cstr ptr = param_name then
      match strtok_r 58 saved with
      | none => none
      | some (none, _) => some (.leave none)
      | some (some ptr, _) => some (.leave (some (ptr.dropWhile fun c => c = 32)))
    else some (.next ptr)

/-- The loop, on what is left of the file. Its last `ptr` is the result when it ends. -/
def config_loop (param_name : List UInt8) : Nat → List UInt8 → Option (Option (List UInt8))
  | 0, _ => none
  | fuel + 1, file =>
    let (line, file, eof) := fgets (VALUE_SIZE - 1) file
    if line = [] then some none
    else
      match config_turn (line ++ List.replicate (VALUE_SIZE - line.length) 0) param_name with
      | none => none
      | some (.leave ptr) => some ptr
      | some (.next ptr) => if eof then some (some ptr) else config_loop param_name fuel file

/-- `get_config_param`, on the file or on none that could be opened: the pointer that it
returns, or no result when it leaves `value`. Each turn takes a character at least. -/
def get_config_param (config_file : Option (List UInt8)) (param_name : List UInt8) :
    Option (Option (List UInt8)) :=
  match config_file with
  | none => some none
  | some file => config_loop param_name (file.length + 1) file

/-! ## The lines of a file -/

/-- A line `name:value` that fits into `value`. -/
structure Line where
  name : List UInt8
  value : List UInt8
  name_ne : name ≠ []
  value_ne : value ≠ []
  clean : ∀ c ∈ name ++ value, c ∉ [0, 58, 10, 13]
  short : name.length + 1 + value.length < VALUE_SIZE - 1

def Line.bytes (l : Line) : List UInt8 := l.name ++ 58 :: l.value

/-- A file of these lines. The last one ends with a newline, or with the file. -/
def content : List Line → Bool → List UInt8
  | [], _ => []
  | [l], ended => l.bytes ++ if ended then [10] else []
  | l :: ls, ended => l.bytes ++ 10 :: content ls ended

/-- The lookup gives the value of the first line with the name, without its leading
spaces, and NULL when there is none. -/
def Right (lines : List Line) (ended : Bool) (param_name : List UInt8) : Prop :=
  ∃ ptr, get_config_param (some (content lines ended)) param_name = some ptr ∧
    ptr.map cstr = (lines.find? fun l => l.name = param_name).map fun l =>
      l.value.dropWhile fun c => c = 32

/-! ## One line -/

theorem fgets_line {w : List UInt8} {n : Nat} (hw : 10 ∉ w) (hn : w.length < n)
    (file : List UInt8) : fgets n (w ++ 10 :: file) = (w ++ [10], file, false) := by
  induction w generalizing n with
  | nil =>
    cases n with
    | zero => cases hn
    | succ n => rfl
  | cons c w ih =>
    cases n with
    | zero => cases hn
    | succ n =>
      have hc : c ≠ 10 := fun h => hw (h ▸ List.mem_cons_self)
      rw [List.cons_append, fgets, if_neg hc,
        ih (fun h => hw (List.mem_cons_of_mem _ h)) (Nat.lt_of_succ_lt_succ hn)]
      rfl

theorem fgets_last {w : List UInt8} {n : Nat} (hw : 10 ∉ w) (hn : w.length < n) :
    fgets n w = (w, [], true) := by
  induction w generalizing n with
  | nil =>
    cases n with
    | zero => cases hn
    | succ n => rfl
  | cons c w ih =>
    cases n with
    | zero => cases hn
    | succ n =>
      have hc : c ≠ 10 := fun h => hw (h ▸ List.mem_cons_self)
      rw [fgets, if_neg hc, ih (fun h => hw (List.mem_cons_of_mem _ h)) (Nat.lt_of_succ_lt_succ hn)]

namespace Line

variable (l : Line)

theorem name_clean {c : UInt8} (hc : c ∈ l.name) : InToken 58 c := by
  have h := l.clean c (List.mem_append_left _ hc)
  simp only [List.mem_cons, not_or] at h
  exact ⟨h.2.1, h.1⟩

theorem value_clean {c : UInt8} (hc : c ∈ l.value) : InToken 58 c := by
  have h := l.clean c (List.mem_append_right _ hc)
  simp only [List.mem_cons, not_or] at h
  exact ⟨h.2.1, h.1⟩

/-- No character of a line ends it. -/
theorem bytes_clean {c : UInt8} (hc : c ∈ l.bytes) : c ≠ 0 ∧ c ∉ [(10 : UInt8), 13] := by
  rcases List.mem_append.mp hc with hname | hrest
  · have h := l.clean c (List.mem_append_left _ hname)
    simp only [List.mem_cons, not_or] at h ⊢
    exact ⟨h.1, h.2.2⟩
  · rcases List.mem_cons.mp hrest with rfl | hvalue
    · decide
    · have h := l.clean c (List.mem_append_right _ hvalue)
      simp only [List.mem_cons, not_or] at h ⊢
      exact ⟨h.1, h.2.2⟩

theorem no_newline : 10 ∉ l.bytes := fun h => (l.bytes_clean h).2 (by decide)

@[simp] theorem bytes_length : l.bytes.length = l.name.length + 1 + l.value.length := by
  simp only [bytes, List.length_append, List.length_cons]
  omega

end Line

theorem chomp_line (l : Line) {e : UInt8} (he : e ∈ [(0 : UInt8), 10, 13]) (rest : List UInt8) :
    (l.bytes ++ e :: rest).set (strcspn (l.bytes ++ e :: rest) [10, 13]) 0 =
      l.bytes ++ 0 :: rest := by
  have hlen : strcspn (l.bytes ++ e :: rest) [10, 13] = l.bytes.length := by
    unfold strcspn
    rw [List.takeWhile_append_of_pos fun c hc => by simpa using l.bytes_clean hc,
      List.takeWhile_cons_of_neg, List.append_nil]
    simp only [List.mem_cons, List.not_mem_nil, or_false] at he
    rcases he with rfl | rfl | rfl <;> decide
  rw [hlen, List.set_append_right _ _ (Nat.le_refl _), Nat.sub_self]
  rfl

/-- The body of the loop on a line, whatever ends it. -/
theorem config_turn_line (l : Line) {e : UInt8} (he : e ∈ [(0 : UInt8), 10, 13])
    (rest param_name : List UInt8) :
    ∃ t, config_turn (l.bytes ++ e :: rest) param_name = some t ∧
      if l.name = param_name then
        ∃ ptr, t = .leave (some ptr) ∧ cstr ptr = l.value.dropWhile fun c => c = 32
      else ∃ ptr, t = .next ptr ∧ cstr ptr = l.name := by
  have hname : 0 ∉ l.name := fun h => (l.name_clean h).2 rfl
  have hvalue : 0 ∉ l.value := fun h => (l.value_clean h).2 rfl
  have hstart : ∀ c ∈ ([] : List UInt8), c = 58 := by simp
  have hfirst := strtok_r_token (e := 58) hstart
    (fun c hc => l.name_clean hc) l.name_ne (fun h => h.1 rfl) (l.value ++ 0 :: rest)
  have hsecond := strtok_r_token (e := 0) hstart
    (fun c hc => l.value_clean hc) l.value_ne (fun h => h.2 rfl) rest
  rw [List.nil_append] at hsecond
  have hbytes : l.bytes ++ 0 :: rest = [] ++ l.name ++ 58 :: (l.value ++ 0 :: rest) := by
    simp [Line.bytes]
  unfold config_turn
  rw [chomp_line l he, hbytes, hfirst]
  simp only [cstr_append hname]
  by_cases hmatch : l.name = param_name
  · refine ⟨.leave (some ((l.value ++ 0 :: rest).dropWhile fun c => c = 32)), ?_, ?_⟩
    · simp only [hmatch, if_true]
      rw [if_neg (by decide), hsecond]
    · rw [if_pos hmatch]
      refine ⟨_, rfl, ?_⟩
      rw [dropWhile_append_stop (by decide)]
      exact cstr_append (fun h => hvalue ((List.dropWhile_sublist _).subset h)) _
  · refine ⟨.next (l.name ++ 0 :: (l.value ++ 0 :: rest)), ?_, ?_⟩
    · simp only [hmatch, if_false]
    · rw [if_neg hmatch]
      exact ⟨_, rfl, cstr_append hname _⟩

/-! ## Any file -/

theorem fgets_length (n : Nat) (file : List UInt8) : (fgets n file).1.length ≤ n ∧
    (fgets n file).1.length + (fgets n file).2.1.length = file.length := by
  induction n generalizing file with
  | zero => simp [fgets]
  | succ n ih =>
    cases file with
    | nil => simp [fgets]
    | cons c file =>
      obtain ⟨hle, hsum⟩ := ih file
      unfold fgets
      split_ifs
      · simp only [List.length_cons, List.length_nil]
        omega
      · simp only [List.length_cons]
        omega

/-- The body of the loop stays inside `value`, as `fgets` leaves a NUL in it. -/
theorem config_turn_total {line : List UInt8} (hlen : line.length < VALUE_SIZE)
    (param_name : List UInt8) :
    ∃ t, config_turn (line ++ List.replicate (VALUE_SIZE - line.length) 0) param_name = some t := by
  have hzero : (0 : UInt8) ∈ line ++ List.replicate (VALUE_SIZE - line.length) 0 := by
    apply List.mem_append_right
    apply List.mem_replicate.mpr
    exact ⟨by omega, rfl⟩
  have hchomp := List.mem_set (strcspn_lt hzero [10, 13]) 0
  obtain ⟨tok, saved, htok, hsaved⟩ := strtok_r_terminated (d := 58) (by decide) hchomp
  obtain ⟨val, saved', hval, -⟩ := strtok_r_terminated (d := 58) (by decide) hsaved
  unfold config_turn
  rw [htok]
  cases tok with
  | none => exact ⟨_, rfl⟩
  | some ptr =>
    simp only [hval]
    split_ifs
    · cases val with
      | none => exact ⟨_, rfl⟩
      | some ptr => exact ⟨_, rfl⟩
    · exact ⟨_, rfl⟩

/-- Each turn takes a character at least, so the fuel does not run out. -/
theorem config_loop_total (param_name : List UInt8) {fuel : Nat} {file : List UInt8}
    (hf : file.length < fuel) : ∃ ptr, config_loop param_name fuel file = some ptr := by
  induction fuel generalizing file with
  | zero => cases hf
  | succ fuel ih =>
    obtain ⟨hle, hsum⟩ := fgets_length (VALUE_SIZE - 1) file
    obtain ⟨t, ht⟩ := config_turn_total
      (show (fgets (VALUE_SIZE - 1) file).1.length < VALUE_SIZE by
        simp only [VALUE_SIZE] at hle ⊢
        omega) param_name
    rw [config_loop]
    by_cases hempty : (fgets (VALUE_SIZE - 1) file).1 = []
    · simp only [hempty, if_true]
      exact ⟨_, rfl⟩
    · have hpos := List.length_pos_iff.mpr hempty
      have hrest : (fgets (VALUE_SIZE - 1) file).2.1.length < fuel := by omega
      simp only [hempty, if_false, ht]
      cases t with
      | leave ptr => exact ⟨_, rfl⟩
      | next ptr =>
        simp only
        split_ifs
        · exact ⟨_, rfl⟩
        · exact ih hrest

theorem get_config_param_total (config_file : Option (List UInt8)) (param_name : List UInt8) :
    ∃ ptr, get_config_param config_file param_name = some ptr := by
  cases config_file with
  | none => exact ⟨none, rfl⟩
  | some file => exact config_loop_total param_name (Nat.lt_succ_self _)

/-! ## All lines -/

/-- A turn of the loop on a line that ends with a newline. -/
theorem config_loop_line (l : Line) (param_name file : List UInt8) (fuel : Nat) :
    ∃ ptr, (l.name = param_name → cstr ptr = l.value.dropWhile fun c => c = 32) ∧
      config_loop param_name (fuel + 1) (l.bytes ++ 10 :: file) =
        if l.name = param_name then some (some ptr) else config_loop param_name fuel file := by
  have hfgets : fgets (VALUE_SIZE - 1) (l.bytes ++ 10 :: file) = (l.bytes ++ [10], file, false) :=
    fgets_line l.no_newline (by rw [l.bytes_length]; exact l.short) file
  obtain ⟨t, ht, hcases⟩ := config_turn_line l (e := 10) (by decide)
    (List.replicate (VALUE_SIZE - (l.bytes ++ [10]).length) 0) param_name
  rw [List.append_cons] at ht
  rw [config_loop, hfgets]
  simp only [List.append_eq_nil_iff, List.cons_ne_nil, and_false, if_false, ht]
  by_cases hmatch : l.name = param_name
  · rw [if_pos hmatch] at hcases
    obtain ⟨ptr, rfl, hptr⟩ := hcases
    refine ⟨ptr, fun _ => hptr, ?_⟩
    rw [if_pos hmatch]
  · rw [if_neg hmatch] at hcases
    obtain ⟨ptr, rfl, -⟩ := hcases
    refine ⟨ptr, fun h => absurd h hmatch, ?_⟩
    rw [if_neg hmatch]
    rfl

/-- The last turn, on a line that ends with the file: the loop ends after it. -/
theorem config_loop_last (l : Line) (param_name : List UInt8) (fuel : Nat) :
    ∃ ptr, config_loop param_name (fuel + 1) l.bytes = some (some ptr) ∧
      cstr ptr = if l.name = param_name then l.value.dropWhile (fun c => c = 32) else l.name := by
  have hlen : l.bytes.length < VALUE_SIZE - 1 := by
    rw [l.bytes_length]
    exact l.short
  have hzero : List.replicate (VALUE_SIZE - l.bytes.length) (0 : UInt8) =
      0 :: List.replicate (VALUE_SIZE - 1 - l.bytes.length) 0 := by
    rw [← List.replicate_succ]
    congr 1
    omega
  have hne : l.bytes ≠ [] := by simp [Line.bytes]
  obtain ⟨t, ht, hcases⟩ := config_turn_line l (e := 0) (by decide)
    (List.replicate (VALUE_SIZE - 1 - l.bytes.length) 0) param_name
  rw [config_loop, fgets_last l.no_newline hlen]
  simp only [hne, if_false, hzero, ht, if_true]
  by_cases hmatch : l.name = param_name
  · rw [if_pos hmatch] at hcases ⊢
    obtain ⟨ptr, rfl, hptr⟩ := hcases
    exact ⟨ptr, rfl, hptr⟩
  · rw [if_neg hmatch] at hcases ⊢
    obtain ⟨ptr, rfl, hptr⟩ := hcases
    exact ⟨ptr, rfl, hptr⟩

/-- What the lookup gives. Where the last line does not match and ends with the file, it
gives the name in that line. -/
def given (lines : List Line) (ended : Bool) (param_name : List UInt8) : Option (List UInt8) :=
  match lines.find? fun l => l.name = param_name with
  | some l => some (l.value.dropWhile fun c => c = 32)
  | none => if ended then none else lines.getLast?.map Line.name

/-- Where a line is not the last one, or ends with a newline, a newline follows it. -/
theorem content_cons (l : Line) {lines : List Line} {ended : Bool}
    (hne : lines ≠ [] ∨ ended = true) :
    content (l :: lines) ended = l.bytes ++ 10 :: content lines ended := by
  cases lines with
  | cons m lines => rfl
  | nil =>
    obtain rfl := hne.resolve_left fun h => h rfl
    rfl

theorem given_cons (l : Line) {lines : List Line} {ended : Bool}
    (hne : lines ≠ [] ∨ ended = true) (param_name : List UInt8) :
    given (l :: lines) ended param_name =
      if l.name = param_name then some (l.value.dropWhile fun c => c = 32)
      else given lines ended param_name := by
  unfold given
  rw [List.find?_cons]
  by_cases hmatch : l.name = param_name
  · simp [hmatch]
  · simp only [hmatch, decide_false, if_false]
    rcases hne with hne | rfl
    · rw [List.getLast?_cons_of_ne_nil hne]
    · rfl

theorem config_loop_content (lines : List Line) (ended : Bool) (param_name : List UInt8)
    {fuel : Nat} (hf : lines.length < fuel) :
    ∃ ptr, config_loop param_name fuel (content lines ended) = some ptr ∧
      ptr.map cstr = given lines ended param_name := by
  induction lines generalizing fuel with
  | nil =>
    obtain ⟨fuel, rfl⟩ := Nat.exists_eq_succ_of_ne_zero (Nat.ne_of_gt hf)
    refine ⟨none, rfl, ?_⟩
    unfold given
    simp
  | cons l lines ih =>
    obtain ⟨fuel, rfl⟩ := Nat.exists_eq_succ_of_ne_zero (Nat.ne_of_gt (Nat.zero_lt_of_lt hf))
    by_cases hne : lines ≠ [] ∨ ended = true
    · obtain ⟨ptr, hptr, hrun⟩ := config_loop_line l param_name (content lines ended) fuel
      rw [content_cons l hne, given_cons l hne, hrun]
      by_cases hmatch : l.name = param_name
      · simp only [hmatch, if_true]
        exact ⟨some ptr, rfl, congrArg some (hptr hmatch)⟩
      · simp only [hmatch, if_false]
        exact ih (Nat.lt_of_succ_lt_succ hf)
    · push Not at hne
      obtain ⟨rfl, hended⟩ := hne
      have hbytes : content [l] ended = l.bytes := by simp [content, hended]
      obtain ⟨ptr, hrun, hptr⟩ := config_loop_last l param_name fuel
      rw [hbytes, hrun]
      refine ⟨some ptr, rfl, ?_⟩
      rw [Option.map_some, hptr]
      unfold given
      by_cases hmatch : l.name = param_name
      · simp [hmatch]
      · simp [hmatch, hended]

theorem content_length (lines : List Line) (ended : Bool) :
    lines.length ≤ (content lines ended).length := by
  induction lines with
  | nil => exact Nat.zero_le _
  | cons l lines ih =>
    cases lines with
    | nil =>
      simp only [content, List.length_append, Line.bytes_length, List.length_singleton]
      omega
    | cons m lines =>
      simp only [content, List.length_append, List.length_cons, Line.bytes_length] at ih ⊢
      omega

/-- The lookup is right exactly when some line has the name, or the last line ends with
a newline, or there is no line. On any other file too, it comes to its end and stays inside
`value`. -/
theorem lookup_right_iff (lines : List Line) (ended : Bool) (param_name : List UInt8) :
    (Right lines ended param_name ↔
      (∃ l ∈ lines, l.name = param_name) ∨ ended = true ∨ lines = []) ∧
    ∀ config_file, ∃ ptr, get_config_param config_file param_name = some ptr := by
  refine ⟨?_, fun config_file => get_config_param_total config_file param_name⟩
  obtain ⟨ptr, hrun, hptr⟩ :=
    config_loop_content lines ended param_name (Nat.lt_succ_of_le (content_length lines ended))
  have hright : Right lines ended param_name ↔ given lines ended param_name =
      (lines.find? fun l => l.name = param_name).map fun l =>
        l.value.dropWhile fun c => c = 32 := by
    rw [← hptr]
    refine ⟨?_, fun h => ⟨ptr, hrun, h⟩⟩
    rintro ⟨ptr', hrun', h⟩
    obtain rfl : ptr = ptr' := Option.some.inj (hrun.symm.trans hrun')
    exact h
  rw [hright]
  unfold given
  rcases hfind : lines.find? fun l => l.name = param_name with _ | l
  · have hnone : ¬ ∃ l ∈ lines, l.name = param_name := by
      rintro ⟨l, hl, hname⟩
      exact absurd hname (by simpa using List.find?_eq_none.mp hfind l hl)
    cases ended <;> simp [hfind, hnone]
  · have hsome : ∃ l ∈ lines, l.name = param_name :=
      ⟨l, List.mem_of_find?_eq_some hfind, by simpa using List.find?_some hfind⟩
    simp [hfind, hsome]

/-- The line `A:1`. -/
def lineA : Line :=
  { name := [65], value := [49], name_ne := by decide, value_ne := by decide
    clean := by simp, short := by simp }

/-- In a file of the one line `A:1` without a newline, a parameter `B` is found, and its
value is `A`. -/
theorem a_missing_parameter_is_found :
    ¬ ∀ (lines : List Line) (ended : Bool) (param_name : List UInt8),
      Right lines ended param_name := by
  intro hall
  obtain ⟨ptr, hrun, hptr⟩ := hall [lineA] false [66]
  have hgives : (get_config_param (some (content [lineA] false)) [66]).map
      (Option.map cstr) = some (some [65]) := by decide +kernel
  rw [hrun, Option.map_some, hptr] at hgives
  exact absurd hgives (by decide)

/-! ## The ports: `get_configuration` -/

/-- The characters of a parameter name. -/
def chars (s : String) : List UInt8 := s.toList.map fun c => UInt8.ofNat c.toNat

theorem chars_ofList (l : List Char) :
    chars (String.ofList l) = l.map fun c => UInt8.ofNat c.toNat := by
  rw [chars, String.toList_ofList]

/-- The three outputs of `get_configuration`. -/
structure Ports where
  IOTPort : UInt16
  fusionRxPort : UInt16
  fusionTxPort : UInt16

/-- What a store of `strtoul` into a port leaves of the number. -/
def port (str : List UInt8) : UInt16 := UInt16.ofNat (strtoul str)

/-- The check of a port, after the store. -/
def outOfRange (p : UInt16) : Prop := p = 0 ∨ p.toNat = ULONG_MAX

instance (p : UInt16) : Decidable (outOfRange p) := inferInstanceAs (Decidable (_ ∨ _))

/-- `get_configuration`: its return value, and the outputs after it. -/
def get_configuration (config_file : Option (List UInt8)) (out : Ports) : Option (Int × Ports) :=
  match get_config_param config_file (chars "IOT_Device_Port") with
  | none => none
  | some none => some (-1, out)
  | some (some iotDevicePortStr) =>
    let out := { out with IOTPort := port iotDevicePortStr }
    if outOfRange out.IOTPort then some (-1, out)
    else
      match get_config_param config_file (chars "Fusion_RxPort") with
      | none => none
      | some none => some (-1, out)
      | some (some fusionRxPortStr) =>
        let out := { out with fusionRxPort := port fusionRxPortStr }
        if outOfRange out.fusionRxPort then some (-1, out)
        else
          match get_config_param config_file (chars "Fusion_TxPort") with
          | none => none
          | some none => some (-1, out)
          | some (some fusionTxPortStr) =>
            let out := { out with fusionTxPort := port fusionTxPortStr }
            if outOfRange out.fusionTxPort then some (-1, out) else some (0, out)

/-- A port that can be used. -/
def Real (n : Nat) : Prop := 1 ≤ n ∧ n ≤ 65535

/-- Whatever the outputs held, the function returns 0 only for three real ports, and then
these are its outputs; and it returns -1 where a number is not a port. -/
def OnlyReal (config_file : Option (List UInt8)) (iot rx tx : Nat) : Prop :=
  ∀ out, ∃ ret out', get_configuration config_file out = some (ret, out') ∧
    (ret = 0 → (Real iot ∧ Real rx ∧ Real tx) ∧
      out'.IOTPort.toNat = iot ∧ out'.fusionRxPort.toNat = rx ∧ out'.fusionTxPort.toNat = tx) ∧
    (¬ (Real iot ∧ Real rx ∧ Real tx) → ret = -1)

theorem port_toNat (str : List UInt8) : (port str).toNat = strtoul str % 65536 := by
  simp [port]

theorem outOfRange_port (str : List UInt8) : outOfRange (port str) ↔ strtoul str % 65536 = 0 := by
  unfold outOfRange
  rw [← UInt16.toNat_inj, port_toNat]
  have hlt := Nat.mod_lt (strtoul str) (show 0 < 65536 by decide)
  have hmax : strtoul str % 65536 ≠ ULONG_MAX := by
    unfold ULONG_MAX
    omega
  simp [hmax]

section ports

variable {config_file : Option (List UInt8)} {iotDevicePortStr fusionRxPortStr fusionTxPortStr :
  List UInt8}

/-- The function returns 0 exactly when no number is a multiple of 65536. -/
theorem get_configuration_eq (out : Ports)
    (hiot : get_config_param config_file (chars "IOT_Device_Port") = some (some iotDevicePortStr))
    (hrx : get_config_param config_file (chars "Fusion_RxPort") = some (some fusionRxPortStr))
    (htx : get_config_param config_file (chars "Fusion_TxPort") = some (some fusionTxPortStr)) :
    ∃ ret out', get_configuration config_file out = some (ret, out') ∧
      if strtoul iotDevicePortStr % 65536 = 0 ∨ strtoul fusionRxPortStr % 65536 = 0 ∨
          strtoul fusionTxPortStr % 65536 = 0 then ret = -1
      else ret = 0 ∧
        out' = ⟨port iotDevicePortStr, port fusionRxPortStr, port fusionTxPortStr⟩ := by
  unfold get_configuration
  simp only [hiot, hrx, htx, outOfRange_port]
  by_cases h1 : strtoul iotDevicePortStr % 65536 = 0
  · simp only [h1, if_true, true_or]
    exact ⟨_, _, rfl, rfl⟩
  by_cases h2 : strtoul fusionRxPortStr % 65536 = 0
  · simp only [h1, h2, if_true, if_false, true_or, or_true]
    exact ⟨_, _, rfl, rfl⟩
  by_cases h3 : strtoul fusionTxPortStr % 65536 = 0
  · simp only [h1, h2, h3, if_true, if_false, or_true]
    exact ⟨_, _, rfl, rfl⟩
  · simp only [h1, h2, h3, if_false, or_self]
    exact ⟨_, _, rfl, rfl, rfl⟩

/-- Only real ports are accepted exactly when some number is a multiple of 65536, which
is cut to 0, or no number is larger than a port. -/
theorem only_real_iff
    (hiot : get_config_param config_file (chars "IOT_Device_Port") = some (some iotDevicePortStr))
    (hrx : get_config_param config_file (chars "Fusion_RxPort") = some (some fusionRxPortStr))
    (htx : get_config_param config_file (chars "Fusion_TxPort") = some (some fusionTxPortStr)) :
    OnlyReal config_file (strtoul iotDevicePortStr) (strtoul fusionRxPortStr)
        (strtoul fusionTxPortStr) ↔
      (strtoul iotDevicePortStr % 65536 = 0 ∨ strtoul fusionRxPortStr % 65536 = 0 ∨
        strtoul fusionTxPortStr % 65536 = 0) ∨
      (strtoul iotDevicePortStr ≤ 65535 ∧ strtoul fusionRxPortStr ≤ 65535 ∧
        strtoul fusionTxPortStr ≤ 65535) := by
  have hrun := fun out => get_configuration_eq out hiot hrx htx
  generalize hvi : strtoul iotDevicePortStr = iot at hrun ⊢
  generalize hvr : strtoul fusionRxPortStr = rx at hrun ⊢
  generalize hvt : strtoul fusionTxPortStr = tx at hrun ⊢
  unfold OnlyReal
  refine ⟨?_, ?_⟩
  · intro h
    obtain ⟨ret, out', hret, honly, -⟩ := h ⟨0, 0, 0⟩
    obtain ⟨ret', out'', hret', hcases⟩ := hrun ⟨0, 0, 0⟩
    obtain ⟨rfl, rfl⟩ := Prod.mk.inj (Option.some.inj (hret.symm.trans hret'))
    split_ifs at hcases with hmul
    · exact Or.inl hmul
    · obtain ⟨⟨hi, hr, ht⟩, -⟩ := honly hcases.1
      exact Or.inr ⟨hi.2, hr.2, ht.2⟩
  · intro hcond out
    obtain ⟨ret, out', hret, hcases⟩ := hrun out
    refine ⟨ret, out', hret, ?_⟩
    split_ifs at hcases with hmul
    · subst hcases
      exact ⟨fun h => absurd h (by decide), fun _ => rfl⟩
    · obtain ⟨rfl, rfl⟩ := hcases
      have hsmall := hcond.resolve_left hmul
      push Not at hmul
      have hreal : Real iot ∧ Real rx ∧ Real tx := by
        unfold Real
        omega
      refine ⟨fun _ => ⟨hreal, ?_, ?_, ?_⟩, fun h => absurd hreal h⟩
      · rw [port_toNat, hvi]
        omega
      · rw [port_toNat, hvr]
        omega
      · rw [port_toNat, hvt]
        omega

end ports

/-- The configuration file of the repository: its last line ends with the file. -/
def sample : List UInt8 := chars "Fusion_RxPort:8841\nFusion_TxPort:8840\nIOT_Device_Port:8080"

-- `decide` is fast on a list of characters and slow to find them in a string.
theorem sample_eq : sample =
    ['F', 'u', 's', 'i', 'o', 'n', '_', 'R', 'x', 'P', 'o', 'r', 't', ':', '8', '8', '4', '1',
     '\n', 'F', 'u', 's', 'i', 'o', 'n', '_', 'T', 'x', 'P', 'o', 'r', 't', ':', '8', '8', '4',
     '0', '\n', 'I', 'O', 'T', '_', 'D', 'e', 'v', 'i', 'c', 'e', '_', 'P', 'o', 'r', 't', ':',
     '8', '0', '8', '0'].map fun c => UInt8.ofNat c.toNat :=
  chars_ofList _

/-- A lookup that gives a string which starts with the number `n`. -/
theorem found_number (file name : List UInt8) (n : Nat)
    (h : (get_config_param (some file) name).map (Option.map strtoul) = some (some n)) :
    ∃ s, get_config_param (some file) name = some (some s) ∧ strtoul s = n := by
  obtain ⟨o, ho, hn⟩ := Option.map_eq_some_iff.mp h
  obtain ⟨s, rfl, hs⟩ := Option.map_eq_some_iff.mp hn
  exact ⟨s, ho, hs⟩

theorem the_sample_has_real_ports : OnlyReal (some sample) 8080 8841 8840 := by
  obtain ⟨iot, hiot, hi⟩ := found_number sample (chars "IOT_Device_Port") 8080
    (by rw [sample_eq]; decide +kernel)
  obtain ⟨rx, hrx, hr⟩ := found_number sample (chars "Fusion_RxPort") 8841
    (by rw [sample_eq]; decide +kernel)
  obtain ⟨tx, htx, ht⟩ := found_number sample (chars "Fusion_TxPort") 8840
    (by rw [sample_eq]; decide +kernel)
  have h := only_real_iff hiot hrx htx
  rw [hi, hr, ht] at h
  exact h.mpr (by decide)

/-- A file whose port for the device is 65537. -/
def tooLarge : List UInt8 := chars "Fusion_RxPort:8841\nFusion_TxPort:8840\nIOT_Device_Port:65537\n"

theorem tooLarge_eq : tooLarge =
    ['F', 'u', 's', 'i', 'o', 'n', '_', 'R', 'x', 'P', 'o', 'r', 't', ':', '8', '8', '4', '1',
     '\n', 'F', 'u', 's', 'i', 'o', 'n', '_', 'T', 'x', 'P', 'o', 'r', 't', ':', '8', '8', '4',
     '0', '\n', 'I', 'O', 'T', '_', 'D', 'e', 'v', 'i', 'c', 'e', '_', 'P', 'o', 'r', 't', ':',
     '6', '5', '5', '3', '7', '\n'].map fun c => UInt8.ofNat c.toNat :=
  chars_ofList _

/-- The number 65537 is accepted. -/
theorem a_large_number_is_accepted :
    ¬ ∀ (file iot rx tx : List UInt8),
      get_config_param (some file) (chars "IOT_Device_Port") = some (some iot) →
      get_config_param (some file) (chars "Fusion_RxPort") = some (some rx) →
      get_config_param (some file) (chars "Fusion_TxPort") = some (some tx) →
        OnlyReal (some file) (strtoul iot) (strtoul rx) (strtoul tx) := by
  intro hall
  obtain ⟨iot, hiot, hi⟩ := found_number tooLarge (chars "IOT_Device_Port") 65537
    (by rw [tooLarge_eq]; decide +kernel)
  obtain ⟨rx, hrx, hr⟩ := found_number tooLarge (chars "Fusion_RxPort") 8841
    (by rw [tooLarge_eq]; decide +kernel)
  obtain ⟨tx, htx, ht⟩ := found_number tooLarge (chars "Fusion_TxPort") 8840
    (by rw [tooLarge_eq]; decide +kernel)
  obtain ⟨ret, out', hret, -, hmust⟩ := hall tooLarge iot rx tx hiot hrx htx ⟨0, 0, 0⟩
  obtain ⟨ret', out'', hret', hcases⟩ := get_configuration_eq ⟨0, 0, 0⟩ hiot hrx htx
  obtain ⟨rfl, rfl⟩ := Prod.mk.inj (Option.some.inj (hret.symm.trans hret'))
  rw [hi, hr, ht, if_neg (by decide)] at hcases
  rw [hi] at hmust
  have hrefused := hmust fun h => absurd h.1.2 (by decide)
  exact absurd (hrefused.symm.trans hcases.1) (by decide)

end hs_config_file_reader

end udp_service
