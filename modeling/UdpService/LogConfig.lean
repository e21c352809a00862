-- The configuration of the logger (hslog.c): the items of its file, the settings that they
-- make, and what reloads and commands make of them while the service runs.
import UdpService.HsLog
import UdpService.Lib.Runs

open access cstrings runs

namespace udp_service

namespace log_config

open hs_log hs_config_file_reader

/-! ## The settings -/

/-- `HSlogConfig`, the mutex apart. -/
structure LogConfig where
  sFileName : CString 64
  sModuleName : CString 64
  nLogFileSize : BitVec 64
  nFileLevel : UInt16
  nLogLevel : UInt16
  nToFile : Bool
  nPretty : Bool
  nTdSafe : Bool
  nErrLog : Bool
  nSilent : Bool
  nSync : Bool

/-- What `hslog` reads of them. -/
def LogConfig.read (c : LogConfig) : HSlogConfig :=
  { sFileName := c.sFileName, sModuleName := c.sModuleName, nFileLevel := c.nFileLevel
    nLogLevel := c.nLogLevel, nToFile := c.nToFile, nPretty := c.nPretty, nSilent := c.nSilent }

/-- `g_hslogCfg` and `networkLogger`. -/
structure Logger where
  g_hslogCfg : LogConfig
  networkLogger : MulticastLogger

/-- `atoi`, stored into an `unsigned short`. -/
def level (sArg : List UInt8) : UInt16 := UInt16.ofBitVec ((atoi sArg).setWidth 16)

/-- `atoi`, stored into a field of one bit. -/
def bit (sArg : List UInt8) : Bool := (atoi sArg).getLsbD 0

/-- `atoi`, stored into an `unsigned long`. -/
def size (sArg : List UInt8) : BitVec 64 := (atoi sArg).signExtend 64

/-- `atoi`, tested. -/
def flag (sArg : List UInt8) : Bool := atoi sArg ≠ 0

/-- The names that `hslog_parse_config` knows. -/
inductive Setting
  | LOGLEVEL
  | LOGFILELEVEL
  | LOGTOFILE
  | ERRORLOG
  | PRETTYLOG
  | LOGFILESIZE
  | MULTICAST
  | UNICAST
deriving DecidableEq

def Setting.name : Setting → List UInt8
  | .LOGLEVEL => chars "LOGLEVEL"
  | .LOGFILELEVEL => chars "LOGFILELEVEL"
  | .LOGTOFILE => chars "LOGTOFILE"
  | .ERRORLOG => chars "ERRORLOG"
  | .PRETTYLOG => chars "PRETTYLOG"
  | .LOGFILESIZE => chars "LOGFILESIZE"
  | .MULTICAST => chars "MULTICAST"
  | .UNICAST => chars "UNICAST"

/-- What `hslog_parse_config` does under the comparison with the name. -/
def Setting.set (sArg : List UInt8) (l : Logger) : Setting → Logger
  | .LOGLEVEL => { l with g_hslogCfg.nLogLevel := level sArg }
  | .LOGFILELEVEL => { l with g_hslogCfg.nFileLevel := level sArg }
  | .LOGTOFILE => { l with g_hslogCfg.nToFile := bit sArg }
  | .ERRORLOG => { l with g_hslogCfg.nErrLog := bit sArg }
  | .PRETTYLOG => { l with g_hslogCfg.nPretty := bit sArg }
  | .LOGFILESIZE => { l with g_hslogCfg.nLogFileSize := size sArg }
  | .MULTICAST => { l with networkLogger.networkLoggingEnabled := flag sArg }
  | .UNICAST => { l with networkLogger.unicastLoggingEnabled := flag sArg }

/-- The comparisons, in their order. -/
def comparisons : List Setting :=
  [.LOGLEVEL, .LOGFILELEVEL, .LOGTOFILE, .ERRORLOG, .PRETTYLOG, .LOGFILESIZE, .MULTICAST, .UNICAST]

/-- The body of the loop, for the strings `sName` and `sArg`. -/
def assign (l : Logger) (sName sArg : List UInt8) : Logger :=
  if sName.head? = some 35 then l
  else comparisons.foldl (fun l s => if sName = s.name then s.set sArg l else l) l

/-! ## The file -/

/-- `sizeof(sName)` and `sizeof(sArg)`. -/
@[simp] abbrev NAME_SIZE : Nat := 32
@[simp] abbrev ARG_SIZE : Nat := 256

/-- `fscanf(pFile, "%s %[^\n]\n", sName, sArg)`: the strings and the rest of the file, or
nothing when it does not give two. It does not know the sizes of the arrays. -/
def fscanf (file : List UInt8) :
    Except Fault (Option ((List UInt8 × List UInt8) × List UInt8)) :=
  let file := file.dropWhile isspace
  let sName := file.takeWhile (!isspace ·)
  let file := (file.dropWhile (!isspace ·)).dropWhile isspace
  let sArg := file.takeWhile (· ≠ 10)
  let file := (file.dropWhile (· ≠ 10)).dropWhile isspace
  if sName = [] then .ok none
  else if NAME_SIZE ≤ sName.length then .error .store
  else if sArg = [] then .ok none
  else if ARG_SIZE ≤ sArg.length then .error .store
  else .ok (some ((cstr sName, cstr sArg), file))

/-- The loop, on what is left of the file. -/
def parse_loop : Nat → List UInt8 → Logger → Except Fault Logger
  | 0, _, _ => .error .fuel
  | fuel + 1, file, l =>
    match fscanf file with
    | .error e => .error e
    | .ok none => .ok l
    | .ok (some (item, file)) => parse_loop fuel file (assign l item.1 item.2)

/-- `hslog_parse_config`, on the file or on none that could be opened. Each turn takes a
character at least. -/
def hslog_parse_config (pConfig : Option (List UInt8)) (l : Logger) : Except Fault Logger :=
  match pConfig with
  | none => .ok l
  | some file => parse_loop (file.length + 1) file l

/-- The items that `fscanf` finds in a file. -/
def items : Nat → List UInt8 → Except Fault (List (List UInt8 × List UInt8))
  | 0, _ => .error .fuel
  | fuel + 1, file =>
    match fscanf file with
    | .error e => .error e
    | .ok none => .ok []
    | .ok (some (item, file)) => (items fuel file).map (item :: ·)

theorem parse_loop_eq (fuel : Nat) (file : List UInt8) (l : Logger) : parse_loop fuel file l =
    (items fuel file).map fun found => found.foldl (fun l item => assign l item.1 item.2) l := by
  induction fuel generalizing file l with
  | zero => rfl
  | succ fuel ih =>
    unfold parse_loop items
    rcases fscanf file with e | _ | ⟨item, rest⟩
    · rfl
    · rfl
    · simp only [ih]
      cases items fuel rest <;> rfl

/-! ## What the items make -/

theorem mem_comparisons (s : Setting) : s ∈ comparisons := by cases s <;> decide

theorem name_inj {s s' : Setting} : s.name = s'.name ↔ s = s' := by
  have hall : ∀ s ∈ comparisons, ∀ s' ∈ comparisons, s.name = s'.name → s = s' := by
    decide +kernel
  exact ⟨hall s (mem_comparisons s) s' (mem_comparisons s'), congrArg _⟩

theorem name_no_comment (s : Setting) : s.name.head? ≠ some 35 := by
  have hall : ∀ s ∈ comparisons, s.name.head? ≠ some 35 := by decide +kernel
  exact hall s (mem_comparisons s)

/-- An item with a known name does what stands under its comparison. -/
theorem assign_known (l : Logger) (s : Setting) (sArg : List UInt8) :
    assign l s.name sArg = s.set sArg l := by
  rw [assign, if_neg (name_no_comment s)]
  cases s <;> simp [comparisons, name_inj]

theorem assign_unknown (l : Logger) {sName : List UInt8} (h : ∀ s : Setting, sName ≠ s.name)
    (sArg : List UInt8) : assign l sName sArg = l := by
  unfold assign
  split
  · rfl
  · simp [comparisons, h]

/-- The argument of the last item with the name. -/
def lastArg (found : List (List UInt8 × List UInt8)) (s : Setting) : Option (List UInt8) :=
  (found.filterMap fun item => if item.1 = s.name then some item.2 else none).getLast?

/-- The settings that the items make of the configuration. -/
def configured (found : List (List UInt8 × List UInt8)) (c : LogConfig) : LogConfig :=
  { c with
    nLogLevel := ((lastArg found .LOGLEVEL).map level).getD c.nLogLevel
    nFileLevel := ((lastArg found .LOGFILELEVEL).map level).getD c.nFileLevel
    nToFile := ((lastArg found .LOGTOFILE).map bit).getD c.nToFile
    nErrLog := ((lastArg found .ERRORLOG).map bit).getD c.nErrLog
    nPretty := ((lastArg found .PRETTYLOG).map bit).getD c.nPretty
    nLogFileSize := ((lastArg found .LOGFILESIZE).map size).getD c.nLogFileSize }

/-- And of the switches of the network logger. -/
def switched (found : List (List UInt8 × List UInt8)) (n : MulticastLogger) : MulticastLogger :=
  { n with
    networkLoggingEnabled := ((lastArg found .MULTICAST).map flag).getD n.networkLoggingEnabled
    unicastLoggingEnabled := ((lastArg found .UNICAST).map flag).getD n.unicastLoggingEnabled }

theorem lastArg_snoc (found : List (List UInt8 × List UInt8)) (sName sArg : List UInt8)
    (s : Setting) : lastArg (found ++ [(sName, sArg)]) s =
      if sName = s.name then some sArg else lastArg found s := by
  unfold lastArg
  rw [List.filterMap_append]
  by_cases h : sName = s.name
  · simp [h]
  · simp [h]

/-- The last item of a name decides. -/
theorem foldl_assign (found : List (List UInt8 × List UInt8)) (l : Logger) :
    found.foldl (fun l item => assign l item.1 item.2) l =
      ⟨configured found l.g_hslogCfg, switched found l.networkLogger⟩ := by
  induction found using List.reverseRecOn with
  | nil => rfl
  | append_singleton found item ih =>
    obtain ⟨sName, sArg⟩ := item
    rw [List.foldl_append, ih, List.foldl_cons, List.foldl_nil]
    simp only [configured, switched, lastArg_snoc]
    by_cases hknown : ∃ s : Setting, sName = s.name
    · obtain ⟨s, rfl⟩ := hknown
      rw [assign_known]
      cases s <;> simp [Setting.set, name_inj]
    · have hno : ∀ s : Setting, sName ≠ s.name := fun s h => hknown ⟨s, h⟩
      rw [assign_unknown _ hno]
      simp [hno]

/-! ## A file of lines -/

/-- White space. -/
structure Blank where
  bytes : List UInt8
  space : ∀ c ∈ bytes, isspace c = true

/-- A line of a file: a name, white space, an argument up to the newline, and white space
behind it. The space behind the name may hold newlines: a name alone on its line has the
next line for its argument. -/
structure Line where
  name : List UInt8
  gap : Blank
  arg : List UInt8
  blank : Blank
  name_ne : name ≠ []
  name_word : ∀ c ∈ name, isspace c = false ∧ c ≠ 0
  gap_ne : gap.bytes ≠ []
  arg_ne : arg ≠ []
  arg_head : ∀ c ∈ arg.head?, isspace c = false
  arg_line : ∀ c ∈ arg, c ≠ 10 ∧ c ≠ 0

def Line.bytes (x : Line) : List UInt8 := x.name ++ (x.gap.bytes ++ x.arg)

def Line.item (x : Line) : List UInt8 × List UInt8 := (x.name, x.arg)

/-- The strings fit into their arrays. -/
def Line.Short (x : Line) : Prop := x.name.length < NAME_SIZE ∧ x.arg.length < ARG_SIZE

instance (x : Line) : Decidable x.Short := inferInstanceAs (Decidable (_ ∧ _))

/-- A file of these lines. The last one ends with a newline, or with the file. -/
def content : List Line → Bool → List UInt8
  | [], _ => []
  | x :: xs, ended =>
    x.bytes ++ ((if xs.isEmpty && !ended then [] else 10 :: x.blank.bytes) ++ content xs ended)

theorem fscanf_blank (lead : Blank) (file : List UInt8) :
    fscanf (lead.bytes ++ file) = fscanf file := by
  unfold fscanf
  rw [List.dropWhile_append_of_pos lead.space]

theorem content_head (lines : List Line) (ended : Bool) :
    ∀ c ∈ (content lines ended).head?, isspace c = false := by
  rcases lines with _ | ⟨x, xs⟩
  · nofun
  · rw [content, Line.bytes, List.append_assoc]
    exact head_append _ x.name_ne fun c hc => (x.name_word c hc).1

/-- A line, with what follows it. -/
theorem fscanf_line (x : Line) {tail rest : List UInt8}
    (htail : tail = 10 :: x.blank.bytes ++ rest ∨ tail = [] ∧ rest = [])
    (hrest : ∀ c ∈ rest.head?, isspace c = false) :
    fscanf (x.bytes ++ tail) =
      if x.Short then .ok (some (x.item, rest)) else .error .store := by
  have hsplit : x.bytes ++ tail = x.name ++ (x.gap.bytes ++ (x.arg ++ tail)) := by
    simp only [Line.bytes, List.append_assoc]
  obtain ⟨-, hlead⟩ := @span_append isspace [] (x.name ++ (x.gap.bytes ++ (x.arg ++ tail))) nofun
    (head_append _ x.name_ne fun c hc => (x.name_word c hc).1)
  obtain ⟨hname, hbehind⟩ := @span_append (!isspace ·) x.name
    (x.gap.bytes ++ (x.arg ++ tail)) (fun c hc => by simp [(x.name_word c hc).1])
    (head_append _ x.gap_ne fun c hc => by simp [x.gap.space c hc])
  obtain ⟨-, hgap⟩ := @span_append isspace x.gap.bytes (x.arg ++ tail)
    x.gap.space (by rw [List.head?_append_of_ne_nil _ x.arg_ne]; exact x.arg_head)
  obtain ⟨harg, hline⟩ := @span_append (· ≠ 10) x.arg tail
    (fun c hc => by simp [(x.arg_line c hc).1]) (by rcases htail with rfl | ⟨rfl, -⟩ <;> simp)
  have hend : tail.dropWhile isspace = rest := by
    rcases htail with rfl | ⟨rfl, rfl⟩
    · have hspace : ∀ c ∈ 10 :: x.blank.bytes, isspace c = true :=
        List.forall_mem_cons.mpr ⟨by decide, x.blank.space⟩
      exact (span_append hspace hrest).2
    · rfl
  have hnul : 0 ∉ x.name ∧ 0 ∉ x.arg :=
    ⟨fun h => (x.name_word 0 h).2 rfl, fun h => (x.arg_line 0 h).2 rfl⟩
  unfold fscanf
  rw [hsplit]
  rw [List.nil_append] at hlead
  simp only [hlead, hname, hbehind, hgap, harg, hline, hend, x.name_ne, x.arg_ne, if_false,
    cstr_eq_self hnul.1, cstr_eq_self hnul.2]
  by_cases hn : NAME_SIZE ≤ x.name.length
  · rw [if_pos hn, if_neg fun h : x.Short => Nat.not_lt.mpr hn h.1]
  · rw [if_neg hn]
    by_cases ha : ARG_SIZE ≤ x.arg.length
    · rw [if_pos ha, if_neg fun h : x.Short => Nat.not_lt.mpr ha h.2]
    · rw [if_neg ha, if_pos ⟨Nat.not_le.mp hn, Nat.not_le.mp ha⟩]
      rfl

theorem items_content (lines : List Line) (ended : Bool) {fuel : Nat} (h : lines.length < fuel) :
    items fuel (content lines ended) =
      if ∀ x ∈ lines, x.Short then .ok (lines.map Line.item) else .error .store := by
  induction lines generalizing fuel with
  | nil =>
    obtain ⟨fuel, rfl⟩ := Nat.exists_eq_succ_of_ne_zero (Nat.ne_of_gt h)
    rfl
  | cons x xs ih =>
    obtain ⟨fuel, rfl⟩ :=
      Nat.exists_eq_succ_of_ne_zero (Nat.ne_of_gt (Nat.lt_of_le_of_lt (Nat.zero_le _) h))
    have hrest := @fscanf_line x
      ((if xs.isEmpty && !ended then [] else 10 :: x.blank.bytes) ++ content xs ended)
      (content xs ended) (by
        by_cases hlast : (xs.isEmpty && !ended) = true
        · obtain rfl : xs = [] := by simpa using (Bool.and_eq_true_iff.mp hlast).1
          rw [if_pos hlast]
          exact Or.inr ⟨rfl, rfl⟩
        · rw [if_neg hlast]
          exact Or.inl rfl) (content_head xs ended)
    rw [content, items, hrest]
    by_cases hx : x.Short
    · rw [if_pos hx]
      simp only [ih (Nat.lt_of_succ_lt_succ h), List.forall_mem_cons, hx, true_and]
      split_ifs <;> rfl
    · rw [if_neg hx, if_neg fun h => hx (h x List.mem_cons_self)]

theorem fscanf_fault {file : List UInt8} {e : Fault} (h : fscanf file = .error e) :
    e = .store := by
  unfold fscanf at h
  simp only at h
  split_ifs at h
  · exact (Except.error.inj h).symm
  · exact (Except.error.inj h).symm

/-- Every turn takes a character at least. -/
theorem fscanf_shorter {file rest : List UInt8} {item : List UInt8 × List UInt8}
    (h : fscanf file = .ok (some (item, rest))) : rest.length < file.length := by
  unfold fscanf at h
  simp only at h
  split_ifs at h with hname
  · cases h
  · cases h
  · obtain ⟨-, rfl⟩ := Prod.mk.inj (Option.some.inj (Except.ok.inj h))
    have hsplit := congrArg List.length
      (List.takeWhile_append_dropWhile (p := (!isspace ·)) (l := file.dropWhile isspace))
    rw [List.length_append] at hsplit
    have hpos := List.length_pos_iff.mpr hname
    calc _ ≤ _ := List.length_dropWhile_le _ _
      _ ≤ _ := List.length_dropWhile_le _ _
      _ ≤ _ := List.length_dropWhile_le _ _
      _ < (file.dropWhile isspace).length := by omega
      _ ≤ file.length := List.length_dropWhile_le _ _

theorem parse_loop_fuel {fuel : Nat} {file : List UInt8} (h : file.length < fuel) (l : Logger) :
    parse_loop fuel file l ≠ .error .fuel := by
  induction fuel generalizing file l with
  | zero => exact absurd h (Nat.not_lt_zero _)
  | succ fuel ih =>
    unfold parse_loop
    rcases hscan : fscanf file with e | _ | ⟨item, rest⟩
    · rw [fscanf_fault hscan]
      nofun
    · nofun
    · have hshort := fscanf_shorter hscan
      exact ih (by omega) _

theorem parse_loop_ends {fuel : Nat} {file : List UInt8} (h : file.length < fuel) (l : Logger) :
    parse_loop fuel file l = hslog_parse_config (some file) l := by
  have hsame : ∀ (m n : Nat) (file : List UInt8) (l : Logger), file.length < m →
      file.length < n → parse_loop m file l = parse_loop n file l := by
    intro m
    induction m with
    | zero => exact fun n file l hm => absurd hm (Nat.not_lt_zero _)
    | succ m ih =>
      intro n file l hm hn
      obtain ⟨n, rfl⟩ := Nat.exists_eq_succ_of_ne_zero (Nat.ne_of_gt (Nat.zero_lt_of_lt hn))
      unfold parse_loop
      rcases hscan : fscanf file with e | _ | ⟨item, rest⟩
      · rfl
      · rfl
      · have hshort := fscanf_shorter hscan
        exact ih n rest _ (by omega) (by omega)
  exact hsame fuel (file.length + 1) file l h (Nat.lt_succ_self _)

theorem lines_le (lines : List Line) (ended : Bool) :
    lines.length ≤ (content lines ended).length := by
  induction lines with
  | nil => exact Nat.zero_le _
  | cons x xs ih =>
    have hpos := List.length_pos_iff.mpr x.name_ne
    simp only [content, Line.bytes, List.length_append, List.length_cons]
    omega

/-- A file of lines is parsed inside `sName` and `sArg` exactly when every name and every
argument fits, and then the settings are those of the last line with each name. The loop ends
on every file: one turn for each character, and one, is enough, and more change nothing. -/
theorem a_file_is_read_line_by_line (lead : Blank) (lines : List Line) (ended : Bool)
    (l : Logger) :
    (hslog_parse_config (some (lead.bytes ++ content lines ended)) l =
      if ∀ x ∈ lines, x.Short then
        .ok ⟨configured (lines.map Line.item) l.g_hslogCfg,
          switched (lines.map Line.item) l.networkLogger⟩
      else .error .store) ∧
    ∀ fuel file, file.length < fuel → parse_loop fuel file l ≠ .error .fuel ∧
      parse_loop fuel file l = hslog_parse_config (some file) l := by
  refine ⟨?_, fun fuel file h => ⟨parse_loop_fuel h l, parse_loop_ends h l⟩⟩
  have hle := lines_le lines ended
  have hskip : items ((lead.bytes ++ content lines ended).length + 1)
      (lead.bytes ++ content lines ended) =
      items ((lead.bytes ++ content lines ended).length + 1) (content lines ended) := by
    unfold items
    rw [fscanf_blank]
  rw [hslog_parse_config, parse_loop_eq, hskip,
    items_content lines ended (by rw [List.length_append]; omega)]
  split_ifs
  · rw [Except.map, foldl_assign]
  · rfl

/-- A comment of one word takes the next line for its argument, and with it its setting. -/
example : (items 30 (chars "#all\nLOGLEVEL 3\nUNICAST 1\n")).toOption =
    some [(chars "#all", chars "LOGLEVEL 3"), (chars "UNICAST", chars "1")] := by
  decide +kernel

/-! ## Runs of the logger -/

def UDP_SERVICE_LOG : CString 64 := ⟨chars "udp-service.log", by decide +kernel, by decide +kernel⟩

/-- `hslog_sync_init`, where `mutexOk` says that the calls for the mutex went well. -/
def hslog_sync_init (mutexOk : Bool) (c : LogConfig) : LogConfig :=
  if c.nTdSafe then
    let c := if mutexOk then c else { c with nTdSafe := false, nSync := false }
    { c with nSync := true }
  else c

/-- The default values of `hslog_init`. -/
def defaults (pName : CString 64) (nLogLevel : UInt16) (nTdSafe : Bool) : LogConfig :=
  { sFileName := pName, sModuleName := noName, nLogLevel, nTdSafe, nFileLevel := 0
    nErrLog := false, nSilent := false, nToFile := false, nPretty := false, nSync := false
    nLogFileSize := 1024 * 1024 * 5 }

/-- `hslog_init`. -/
def hslog_init (mutexOk : Bool) (pName : CString 64) (pConf : Option (List UInt8))
    (nLogLevel : UInt16) (nTdSafe : Bool) (l : Logger) : Except Fault Logger :=
  hslog_parse_config pConf
    { l with g_hslogCfg := hslog_sync_init mutexOk (defaults pName nLogLevel nTdSafe) }

/-- `hslog_config_get`: it copies all but `nSync`. -/
def hslog_config_get (l : Logger) (pCfg : LogConfig) : LogConfig :=
  { l.g_hslogCfg with nSync := pCfg.nSync }

/-- `hslog_config_set`, its locking apart. -/
def hslog_config_set (mutexOk : Bool) (pCfg : LogConfig) (l : Logger) : Logger :=
  let c := { pCfg with nSync := l.g_hslogCfg.nSync }
  let c :=
    if c.nTdSafe && !c.nSync then hslog_sync_init mutexOk c
    else if !c.nTdSafe && c.nSync then { c with nSync := false, nTdSafe := false }
    else c
  { l with g_hslogCfg := c }

def hslog_set_module (str : CString 64) (l : Logger) : Logger :=
  { l with g_hslogCfg.sModuleName := str }

def UDP_SERVICE : CString 64 := ⟨chars "UDP-service", by decide +kernel, by decide +kernel⟩

/-- The logger when `main` begins. -/
def zeroed (g_hslogCfg : LogConfig) : Logger := ⟨g_hslogCfg, ⟨false, false, 0⟩⟩

/-- What `main` does with the logger before the threads run. `g_hslogCfg` and `slgCfg` are
what the two configurations hold at its start. -/
def main (mutexOk : Bool) (g_hslogCfg slgCfg : LogConfig) (pConf : Option (List UInt8)) :
    Except Fault Logger := do
  let l ← hslog_init mutexOk UDP_SERVICE_LOG pConf 0 true (zeroed g_hslogCfg)
  let l := hslog_set_module UDP_SERVICE l
  let slgCfg := hslog_config_get l slgCfg
  return hslog_config_set mutexOk { slgCfg with nToFile := false, nPretty := true } l

/-- What happens to the logger: a reload of the file, a command from the network, a line that
is logged. -/
inductive Event
  | reload (mutexOk : Bool) (pConf : Option (List UInt8))
  | command (command : List UInt8)
  | log (sDate : CString 32) (nFlag : Int) (text : List UInt8)

/-- One event. A fault ends the process. -/
def step (l : Logger) : Event → Option Logger
  | .reload mutexOk pConf => (hslog_init mutexOk UDP_SERVICE_LOG pConf 0 true l).toOption
  | .command command => some { l with networkLogger := obey l.networkLogger command }
  | .log sDate nFlag text =>
    (hslog l.g_hslogCfg.read l.networkLogger sDate nFlag text).toOption.map fun r =>
      { l with networkLogger := r.1 }

/-- The items of the file, where it could be opened. -/
def itemsOf (pConf : Option (List UInt8)) : List (List UInt8 × List UInt8) :=
  match pConf with
  | none => []
  | some file => (items (file.length + 1) file).toOption.getD []

/-- The configuration that a reload leaves. It depends on nothing before. -/
def reloaded : Event → Option LogConfig
  | .reload mutexOk pConf =>
    some (configured (itemsOf pConf) (hslog_sync_init mutexOk (defaults UDP_SERVICE_LOG 0 true)))
  | _ => none

/-- What an event makes of the network logging: a reload only what its file says. -/
def multicast : Event → Option Bool
  | .reload _ pConf => (lastArg (itemsOf pConf) .MULTICAST).map flag
  | .command command =>
    if command = chars "START_LOGGING" then some true
    else if command = chars "STOP_LOGGING" then some false
    else none
  | .log .. => none

/-- And of the unicast logging. -/
def unicast : Event → Option Bool
  | .reload _ pConf => (lastArg (itemsOf pConf) .UNICAST).map flag
  | _ => none

section runs

variable {l l' u : Logger} {e : Event} {es : List Event}

theorem hslog_parse_config_ok {pConf : Option (List UInt8)}
    (h : hslog_parse_config pConf l = .ok l') :
    l' = ⟨configured (itemsOf pConf) l.g_hslogCfg, switched (itemsOf pConf) l.networkLogger⟩ := by
  cases pConf with
  | none =>
    cases h
    rfl
  | some file =>
    rw [hslog_parse_config, parse_loop_eq] at h
    cases hitems : items (file.length + 1) file with
    | error e =>
      rw [hitems] at h
      cases h
    | ok found =>
      have hfound : itemsOf (some file) = found := by simp only [itemsOf, hitems]; rfl
      rw [hitems] at h
      cases h
      rw [hfound]
      exact foldl_assign found l

/-- A line that is logged moves the sequence number only. -/
theorem hslog_keeps {c : HSlogConfig} {n : MulticastLogger} {sDate : CString 32} {nFlag : Int}
    {text : List UInt8} {r : MulticastLogger × Written} (h : hslog c n sDate nFlag text = .ok r) :
    r.1 = { n with seq := r.1.seq } := by
  unfold hslog at h
  split at h
  · cases h
    rfl
  obtain ⟨sInput, -, h⟩ := bind_eq_ok h
  split at h
  · obtain ⟨sMessage, -, h⟩ := bind_eq_ok h
    obtain ⟨logged, hnetwork, h⟩ := bind_eq_ok h
    cases h
    unfold hslog_to_network at hnetwork
    obtain ⟨severity, -, hnetwork⟩ := bind_eq_ok hnetwork
    obtain ⟨msg, -, hnetwork⟩ := bind_eq_ok hnetwork
    obtain ⟨msglen, -, hnetwork⟩ := bind_eq_ok hnetwork
    obtain ⟨msg', -, hnetwork⟩ := bind_eq_ok hnetwork
    obtain ⟨sent, -, hnetwork⟩ := bind_eq_ok hnetwork
    cases hnetwork
    rfl
  · cases h
    rfl

theorem step_reload {mutexOk : Bool} {pConf : Option (List UInt8)}
    (hs : step l (.reload mutexOk pConf) = some u) :
    u = ⟨configured (itemsOf pConf) (hslog_sync_init mutexOk (defaults UDP_SERVICE_LOG 0 true)),
      switched (itemsOf pConf) l.networkLogger⟩ :=
  hslog_parse_config_ok (toOption_eq_some.mp hs)

theorem step_log {sDate : CString 32} {nFlag : Int} {text : List UInt8}
    (hs : step l (.log sDate nFlag text) = some u) :
    ∃ r, hslog l.g_hslogCfg.read l.networkLogger sDate nFlag text = .ok r ∧
      u = { l with networkLogger := r.1 } := by
  obtain ⟨r, hr, rfl⟩ := Option.map_eq_some_iff.mp hs
  exact ⟨r, toOption_eq_some.mp hr, rfl⟩

theorem step_settings (hs : step l e = some u) :
    u.g_hslogCfg = (reloaded e).getD l.g_hslogCfg ∧
      u.networkLogger.networkLoggingEnabled =
        (multicast e).getD l.networkLogger.networkLoggingEnabled ∧
      u.networkLogger.unicastLoggingEnabled =
        (unicast e).getD l.networkLogger.unicastLoggingEnabled := by
  cases e with
  | reload mutexOk pConf =>
    obtain rfl := step_reload hs
    exact ⟨rfl, rfl, rfl⟩
  | command command =>
    cases hs
    simp only [obey, reloaded, multicast, unicast]
    split_ifs <;> exact ⟨rfl, rfl, rfl⟩
  | log sDate nFlag text =>
    obtain ⟨r, hlog, rfl⟩ := step_log hs
    rw [hslog_keeps hlog]
    exact ⟨rfl, rfl, rfl⟩

theorem run_settings (hr : run step l es = some u) :
    u.g_hslogCfg = (es.filterMap reloaded).getLast?.getD l.g_hslogCfg ∧
      u.networkLogger.networkLoggingEnabled =
        (es.filterMap multicast).getLast?.getD l.networkLogger.networkLoggingEnabled ∧
      u.networkLogger.unicastLoggingEnabled =
        (es.filterMap unicast).getLast?.getD l.networkLogger.unicastLoggingEnabled :=
  ⟨run_register Logger.g_hslogCfg (fun _ _ _ hs => (step_settings hs).1) hr,
    run_register (fun l => l.networkLogger.networkLoggingEnabled)
      (fun _ _ _ hs => (step_settings hs).2.1) hr,
    run_register (fun l => l.networkLogger.unicastLoggingEnabled)
      (fun _ _ _ hs => (step_settings hs).2.2) hr⟩

theorem hslog_config_set_keeps (mutexOk : Bool) (pCfg : LogConfig) (l : Logger) :
    (hslog_config_set mutexOk pCfg l).g_hslogCfg.sModuleName = pCfg.sModuleName ∧
      (hslog_config_set mutexOk pCfg l).networkLogger = l.networkLogger := by
  refine ⟨?_, rfl⟩
  simp only [hslog_config_set, hslog_sync_init]
  split_ifs <;> rfl

/-- The start is a reload, a module name and two settings. -/
theorem main_settings {mutexOk : Bool} {g_hslogCfg slgCfg : LogConfig}
    {pConf : Option (List UInt8)} (hstart : main mutexOk g_hslogCfg slgCfg pConf = .ok l) :
    ∃ l₀, step (zeroed g_hslogCfg) (.reload mutexOk pConf) = some l₀ ∧
      l.g_hslogCfg.sModuleName = UDP_SERVICE ∧ l.networkLogger = l₀.networkLogger := by
  unfold main at hstart
  obtain ⟨l₀, hinit, hset⟩ := bind_eq_ok hstart
  obtain rfl := Except.ok.inj hset
  obtain ⟨hname, hnetwork⟩ := hslog_config_set_keeps mutexOk
    { hslog_config_get (hslog_set_module UDP_SERVICE l₀) slgCfg with
      nToFile := false, nPretty := true } (hslog_set_module UDP_SERVICE l₀)
  refine ⟨l₀, ?_, hname, hnetwork⟩
  rw [step, hinit]
  rfl

theorem reloaded_noName {c : LogConfig} (h : reloaded e = some c) : c.sModuleName = noName := by
  cases e with
  | reload mutexOk pConf =>
    obtain rfl := Option.some.inj h
    cases mutexOk <;> rfl
  | command command => cases h
  | log sDate nFlag text => cases h

/-- The settings in every run of reloads, commands and log calls after `main`. The
configuration is that of the last file alone, each switch of the network logger is as it was
set last, whoever set it, and the module name that `main` sets is there until the first
reload. -/
theorem the_settings_are_those_of_the_last_file {mutexOk : Bool} {g_hslogCfg slgCfg : LogConfig}
    {pConf : Option (List UInt8)} (hstart : main mutexOk g_hslogCfg slgCfg pConf = .ok l)
    (hr : run step l es = some u) :
    u.g_hslogCfg = (es.filterMap reloaded).getLast?.getD l.g_hslogCfg ∧
      u.networkLogger.networkLoggingEnabled =
        ((Event.reload mutexOk pConf :: es).filterMap multicast).getLast?.getD false ∧
      u.networkLogger.unicastLoggingEnabled =
        ((Event.reload mutexOk pConf :: es).filterMap unicast).getLast?.getD false ∧
      (u.g_hslogCfg.sModuleName.bytes = chars "UDP-service" ↔ es.filterMap reloaded = []) := by
  obtain ⟨l₀, hfirst, hname, hnetwork⟩ := main_settings hstart
  obtain ⟨-, hmulticast₀, hunicast₀⟩ := step_settings hfirst
  obtain ⟨hcfg, hmulticast, hunicast⟩ := run_settings hr
  refine ⟨hcfg, ?_, ?_, ?_⟩
  · rw [hmulticast, hnetwork, hmulticast₀, last_set_cons]
    rfl
  · rw [hunicast, hnetwork, hunicast₀, last_set_cons]
    rfl
  · rw [hcfg]
    rcases hlast : (es.filterMap reloaded).getLast? with _ | c
    · rw [Option.getD_none, hname]
      exact iff_of_true rfl (List.getLast?_eq_none_iff.mp hlast)
    · have hnoName : c.sModuleName = noName := by
        obtain ⟨e, -, he⟩ := List.mem_filterMap.mp (List.mem_of_getLast? hlast)
        exact reloaded_noName he
      have hdiffer : noName.bytes ≠ chars "UDP-service" := by decide +kernel
      rw [Option.getD_some, hnoName]
      refine iff_of_false hdiffer fun hnil => ?_
      rw [hnil] at hlast
      cases hlast

end runs

/-- The file switches the network logging on, a command switches it off, and a reload does
not find the file. -/
theorem a_reload_takes_the_module_name : ∃ l u,
    main true (defaults noName 0 true) (defaults noName 0 true)
      (some (chars "MULTICAST 1\nLOGLEVEL 3\n")) = .ok l ∧
    run step l [.command (chars "STOP_LOGGING"), .reload true none] = some u ∧
    u.networkLogger.networkLoggingEnabled = false ∧
    u.g_hslogCfg.sModuleName.bytes ≠ chars "UDP-service" := by
  have hstart : (main true (defaults noName 0 true) (defaults noName 0 true)
      (some (chars "MULTICAST 1\nLOGLEVEL 3\n"))).toOption.isSome = true := by decide +kernel
  rcases hmain : main true (defaults noName 0 true) (defaults noName 0 true)
      (some (chars "MULTICAST 1\nLOGLEVEL 3\n")) with e | l
  · rw [hmain] at hstart
    cases hstart
  obtain ⟨u, hrun⟩ : ∃ u, run step l [.command (chars "STOP_LOGGING"), .reload true none] =
      some u := ⟨_, rfl⟩
  obtain ⟨-, hmulticast, -, hmodule⟩ := the_settings_are_those_of_the_last_file hmain hrun
  have hlast : ((Event.reload true (some (chars "MULTICAST 1\nLOGLEVEL 3\n")) ::
      [.command (chars "STOP_LOGGING"), .reload true none]).filterMap
      multicast).getLast?.getD false = false := by decide +kernel
  exact ⟨l, u, rfl, hrun, hmulticast.trans hlast, fun h => by cases hmodule.mp h⟩

end log_config

end udp_service
