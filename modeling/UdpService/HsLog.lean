-- The network logger. A line is formatted into a message behind a header, whether it is
-- sent or not, and a thread of its own reads the commands that switch the sending.
import UdpService.HsConfigFileReader
import UdpService.Lib.Access

open access blocks cstrings

namespace udp_service

namespace hs_log

open hs_config_file_reader

def MAXMSG : Nat := 8196
def MAXLEN : Nat := 1024

def HSLOG_NONE : Int := 0
def HSLOG_LIVE : Int := 1
def HSLOG_DEBUG : Int := 4
def HSLOG_PANIC : Int := 7

def UDP_SRV : UInt8 := 2

/-- `sizeof(msg)` in `hslog_to_network`. -/
def MSG_SIZE : Nat := 1400

/-- `sizeof(icd->hdr)`: the text starts behind it. -/
def HDR_SIZE : Nat := 8

/-! ## The line: `hslog_to_network` -/

/-- `struct icd_hslog_hdr`. -/
structure IcdHslogHdr where
  seq : UInt32
  len : UInt16
  module : UInt8
  loglevel : UInt8
deriving DecidableEq

/-- The packed header, the low bytes first. -/
def IcdHslogHdr.bytes (h : IcdHslogHdr) : List UInt8 :=
  [h.seq.toUInt8, (h.seq >>> 8).toUInt8, (h.seq >>> 16).toUInt8, (h.seq >>> 24).toUInt8,
    h.len.toUInt8, (h.len >>> 8).toUInt8, h.module, h.loglevel]

/-- What `networkLogger` holds besides its sockets and addresses. Here `seq` wraps where
the `++` of the source has no defined outcome, behind 2^31 - 1. -/
structure MulticastLogger where
  networkLoggingEnabled : Bool
  unicastLoggingEnabled : Bool
  seq : Int32
deriving DecidableEq

/-- The table of `hslog_to_network`. It has no row for `HSLOG_NONE`, so the level `n` gets
the name of the level `n + 1`. -/
def logSeverity : List (List UInt8) :=
  [chars "LIVE", chars "INFO", chars "WARNING", chars "DEBUG", chars "ERROR", chars "FATAL",
    chars "PANIC"]

/-- `"<%s> [%s] - %s"`. -/
def line (severity module pStr : List UInt8) : List UInt8 :=
  chars "<" ++ severity ++ chars "> [" ++ module ++ chars "] - " ++ pStr

/-- The two kinds of datagrams that the logger sends. -/
inductive Sent
  | mcast_group (bytes : List UInt8)
  | servaddr (bytes : List UInt8)
deriving DecidableEq

/-- The header that goes in front of a text of `msglen` characters. -/
def hdrOf (networkLogger : MulticastLogger) (nType : Int) (msglen : Nat) : IcdHslogHdr :=
  { seq := (networkLogger.seq + 1).toUInt32, len := UInt16.ofNat (msglen + HDR_SIZE)
    module := UDP_SRV, loglevel := UInt8.ofInt nType }

/-- What is sent of a message. A `sendto` that fails is printed, and nothing else. -/
def send (networkLogger : MulticastLogger) (msg : Buffer UInt8 MSG_SIZE) (hdr : IcdHslogHdr)
    (msglen : Nat) : Except Fault (List Sent) := do
  let mcast ←
    if networkLogger.networkLoggingEnabled then
      (load msg HDR_SIZE msglen).map fun bytes => [.mcast_group bytes]
    else .ok []
  let unicast ←
    if networkLogger.unicastLoggingEnabled then
      (load msg 0 hdr.len.toNat).map fun bytes => [.servaddr bytes]
    else .ok []
  return mcast ++ unicast

/-- What a call of `hslog_to_network` leaves on its stack and in the network. -/
structure Logged where
  msg : Buffer UInt8 MSG_SIZE
  hdr : IcdHslogHdr
  sent : List Sent

/-- `hslog_to_network`: the logger after it, and what it leaves. -/
def hslog_to_network (networkLogger : MulticastLogger) (pStr : List UInt8) (nType : Int)
    (module : List UInt8) : Except Fault (MulticastLogger × Logged) := do
  let msg : Buffer UInt8 MSG_SIZE := fun _ => 0
  let severity ← index logSeverity nType
  -- the bound is the one of all of `msg`, though `txt` starts behind the header
  let msg ← store msg HDR_SIZE (snprintf (MSG_SIZE - 1) (line severity module pStr))
  let msglen ← strlen msg HDR_SIZE
  let hdr := hdrOf networkLogger nType msglen
  let msg ← store msg 0 hdr.bytes
  let sent ← send networkLogger msg hdr msglen
  return ({ networkLogger with seq := networkLogger.seq + 1 }, ⟨msg, hdr, sent⟩)

/-! ## The commands: `process_network_logging_commands` -/

/-- What a command does to the logger. -/
def obey (networkLogger : MulticastLogger) (command : List UInt8) : MulticastLogger :=
  if command = chars "START_LOGGING" then { networkLogger with networkLoggingEnabled := true }
  else if command = chars "STOP_LOGGING" then
    { networkLogger with networkLoggingEnabled := false }
  else networkLogger

/-- A turn of the loop: a datagram is cut to the size of `message`, and the terminator is
stored behind it. -/
def turn (networkLogger : MulticastLogger) (message : Buffer UInt8 MAXLEN) (d : List UInt8) :
    Except Fault (MulticastLogger × Buffer UInt8 MAXLEN) := do
  let n := (d.take MAXLEN).length
  let message ← store message 0 (d.take MAXLEN)
  let message ← store message n [0]
  return (obey networkLogger (cstr (List.ofFn message)), message)

/-- `process_network_logging_commands`, for the datagrams that come before `recvfrom`
fails, if it ever does. -/
def process_network_logging_commands (networkLogger : MulticastLogger)
    (message : Buffer UInt8 MAXLEN) :
    List (List UInt8) → Except Fault (MulticastLogger × Buffer UInt8 MAXLEN)
  | [] => .ok (networkLogger, message)
  | d :: ds => do
    let (networkLogger, message) ← turn networkLogger message d
    process_network_logging_commands networkLogger message ds

/-! ## A line that fits -/

theorem line_length (severity module pStr : List UInt8) :
    (line severity module pStr).length = severity.length + module.length + pStr.length + 8 := by
  have h1 : (chars "<").length = 1 := by decide
  have h2 : (chars "> [").length = 3 := by decide
  have h3 : (chars "] - ").length = 4 := by decide
  simp only [line, List.length_append, h1, h2, h3]
  omega

theorem zero_not_mem_line {severity module pStr : List UInt8} (hsev : 0 ∉ severity)
    (hmod : 0 ∉ module) (hstr : 0 ∉ pStr) : 0 ∉ line severity module pStr := by
  have h1 : 0 ∉ chars "<" := by decide +kernel
  have h2 : 0 ∉ chars "> [" := by decide +kernel
  have h3 : 0 ∉ chars "] - " := by decide +kernel
  simp only [line, List.mem_append, not_or]
  exact ⟨⟨⟨⟨⟨h1, hsev⟩, h2⟩, hmod⟩, h3⟩, hstr⟩

/-- The name that the table has for a level, or nothing. -/
def severityOf (nType : Int) : List UInt8 := logSeverity.getD nType.toNat []

/-- The table has a row for the level, and the line has room behind the header with its
terminator. -/
def Fits (nType : Int) (module pStr : List UInt8) : Prop :=
  (0 ≤ nType ∧ nType < HSLOG_PANIC) ∧
    (severityOf nType).length + module.length + pStr.length + 8 < MSG_SIZE - HDR_SIZE

theorem index_logSeverity {nType : Int} (h : 0 ≤ nType ∧ nType < HSLOG_PANIC) :
    index logSeverity nType = .ok (severityOf nType) := by
  obtain ⟨h0, h7⟩ := h
  have hlt : nType < logSeverity.length := h7
  rw [index_ok h0 hlt, severityOf, List.getD_eq_getElem]
  rfl

theorem zero_not_mem_severityOf {nType : Int} (h : 0 ≤ nType ∧ nType < HSLOG_PANIC) :
    0 ∉ severityOf nType := by
  have hall : ∀ s ∈ logSeverity, 0 ∉ s := by decide +kernel
  obtain ⟨h0, h7⟩ := h
  have hlt : nType < logSeverity.length := h7
  rw [severityOf, List.getD_eq_getElem logSeverity [] (by omega)]
  exact hall _ (List.getElem_mem _)

theorem Fits.room {nType : Int} {module pStr : List UInt8} (h : Fits nType module pStr) :
    (line (severityOf nType) module pStr).length < MSG_SIZE - HDR_SIZE := by
  rw [line_length]
  exact h.2

theorem Fits.zero_not_mem {nType : Int} {module pStr : List UInt8} (h : Fits nType module pStr)
    (hmod : 0 ∉ module) (hstr : 0 ∉ pStr) : 0 ∉ line (severityOf nType) module pStr :=
  zero_not_mem_line (zero_not_mem_severityOf h.1) hmod hstr

/-- What goes out of a header and a text. -/
def sentOf (networkLogger : MulticastLogger) (hdr : IcdHslogHdr) (text : List UInt8) :
    List Sent :=
  (if networkLogger.networkLoggingEnabled then [.mcast_group text] else []) ++
    if networkLogger.unicastLoggingEnabled then [.servaddr (hdr.bytes ++ text)] else []

theorem hdrOf_len (networkLogger : MulticastLogger) (nType : Int) {n : Nat}
    (h : n < MSG_SIZE - HDR_SIZE) :
    (hdrOf networkLogger nType n).len.toNat = HDR_SIZE + n := by
  have hlt : n < 1392 := h
  simp only [hdrOf, UInt16.toNat_ofNat', HDR_SIZE]
  omega

/-- A header and a text that the message has room for go out as a whole. -/
theorem send_ok (networkLogger : MulticastLogger) {msg : Buffer UInt8 MSG_SIZE}
    {hdr : IcdHslogHdr} {text rest : List UInt8}
    (hmsg : List.ofFn msg = hdr.bytes ++ (text ++ 0 :: rest))
    (hlen : hdr.len.toNat = HDR_SIZE + text.length) :
    send networkLogger msg hdr text.length = .ok (sentOf networkLogger hdr text) := by
  have hbytes : hdr.bytes.length = HDR_SIZE := rfl
  have hroom : HDR_SIZE + text.length ≤ MSG_SIZE := by
    have h := congrArg List.length hmsg
    simp only [List.length_ofFn, List.length_append, hbytes] at h
    omega
  have htext : load msg HDR_SIZE text.length = .ok text := by
    rw [load_ok msg hroom, hmsg, ← hbytes, List.drop_left, List.take_left]
  have hall : load msg 0 hdr.len.toNat = .ok (hdr.bytes ++ text) := by
    rw [load_ok msg (by omega), hmsg, hlen, List.drop_zero, ← List.append_assoc]
    exact congrArg Except.ok (List.take_left' (by rw [List.length_append, hbytes]))
  unfold send sentOf
  rw [htext, hall]
  cases networkLogger.networkLoggingEnabled <;> cases networkLogger.unicastLoggingEnabled <;> rfl

/-- A line that fits stands in the message as a whole, behind its header, and goes out as a
whole. -/
theorem hslog_to_network_ok (networkLogger : MulticastLogger) {nType : Int}
    {module pStr text : List UInt8} {hdr : IcdHslogHdr} (hfits : Fits nType module pStr)
    (hmod : 0 ∉ module) (hstr : 0 ∉ pStr) (htext : line (severityOf nType) module pStr = text)
    (hhdr : hdrOf networkLogger nType text.length = hdr) :
    ∃ msg rest,
      hslog_to_network networkLogger pStr nType module =
        .ok ({ networkLogger with seq := networkLogger.seq + 1 },
          ⟨msg, hdr, sentOf networkLogger hdr text⟩) ∧
        List.ofFn msg = hdr.bytes ++ (text ++ 0 :: rest) := by
  have hroom : text.length < MSG_SIZE - HDR_SIZE := htext ▸ hfits.room
  have hnul : 0 ∉ text := htext ▸ hfits.zero_not_mem hmod hstr
  have hbytes : hdr.bytes.length = HDR_SIZE := rfl
  have hlen : hdr.len.toNat = HDR_SIZE + text.length := by
    rw [← hhdr]
    exact hdrOf_len networkLogger nType hroom
  have hlt : text.length < 1392 := hroom
  have hput : snprintf (MSG_SIZE - 1) text = text ++ [0] := by
    apply snprintf_of_lt
    simp only [MSG_SIZE]
    omega
  have hsize : HDR_SIZE + (text ++ [0]).length ≤ MSG_SIZE := by
    simp only [List.length_append, List.length_singleton, HDR_SIZE, MSG_SIZE]
    omega
  obtain ⟨empty, hempty⟩ : ∃ b : Buffer UInt8 MSG_SIZE, b = fun _ => 0 := ⟨_, rfl⟩
  obtain ⟨rest, hstored⟩ := drop_write_string empty hsize
  have hfront : 0 + hdr.bytes.length ≤ MSG_SIZE := by
    rw [hbytes]
    decide
  have hmsg := drop_write (empty.write HDR_SIZE (text ++ [0])) hfront
  rw [Nat.zero_add, hbytes, hstored, List.drop_zero] at hmsg
  refine ⟨_, rest, ?_, hmsg⟩
  unfold hslog_to_network
  simp only [← hempty, index_logSeverity hfits.1, htext, hput, store_ok _ hsize,
    strlen_ok hnul hstored, hhdr, store_ok _ hfront, send_ok networkLogger hmsg hlen, bind,
    Except.bind, pure, Except.pure]

/-- A call that stays inside had a line that fits. -/
theorem fits_of_hslog_to_network {networkLogger : MulticastLogger} {pStr module : List UInt8}
    {nType : Int} {r : MulticastLogger × Logged}
    (h : hslog_to_network networkLogger pStr nType module = .ok r) : Fits nType module pStr := by
  unfold hslog_to_network at h
  obtain ⟨severity, hsev, h⟩ := bind_eq_ok h
  obtain ⟨msg, hstore, -⟩ := bind_eq_ok h
  have hlevel : 0 ≤ nType ∧ nType < HSLOG_PANIC := bounds_of_index hsev
  obtain rfl : severity = severityOf nType := by
    rw [index_logSeverity hlevel] at hsev
    exact (Except.ok.inj hsev).symm
  refine ⟨hlevel, ?_⟩
  -- what `snprintf` cuts away does not make the line fit: its bound is not that of the text
  have hroom := le_of_store hstore
  rw [snprintf_length, line_length] at hroom
  simp only [HDR_SIZE, MSG_SIZE] at hroom ⊢
  omega

/-- Every access of the call is inside its object, and the length field is the one of the
header and the text in the message, which is as large as the message at most. -/
def Inside (networkLogger : MulticastLogger) (pStr : List UInt8) (nType : Int)
    (module : List UInt8) : Prop :=
  ∃ networkLogger' r, hslog_to_network networkLogger pStr nType module = .ok (networkLogger', r) ∧
    r.hdr.len.toNat = HDR_SIZE + (cstr ((List.ofFn r.msg).drop HDR_SIZE)).length ∧
    r.hdr.len.toNat ≤ MSG_SIZE

theorem inside_iff (networkLogger : MulticastLogger) {pStr module : List UInt8} (nType : Int)
    (hstr : 0 ∉ pStr) (hmod : 0 ∉ module) :
    Inside networkLogger pStr nType module ↔ Fits nType module pStr := by
  refine ⟨?_, ?_⟩
  · rintro ⟨networkLogger', r, hrun, -⟩
    exact fits_of_hslog_to_network hrun
  · intro hfits
    obtain ⟨msg, rest, hrun, hmsg⟩ := hslog_to_network_ok networkLogger hfits hmod hstr rfl rfl
    have hroom := hfits.room
    have hnul := hfits.zero_not_mem hmod hstr
    have hlen := hdrOf_len networkLogger nType hroom
    have htext : (List.ofFn msg).drop HDR_SIZE =
        line (severityOf nType) module pStr ++ 0 :: rest := by
      rw [hmsg]
      exact List.drop_left' rfl
    have hle : HDR_SIZE ≤ MSG_SIZE := by decide
    refine ⟨_, _, hrun, ?_, ?_⟩
    · rw [htext, cstr_append hnul]
      exact hlen
    · apply hlen.le.trans
      omega

/-! ## The command thread -/

/-- A datagram that leaves room for the terminator is the command up to its first NUL. -/
theorem turn_ok (networkLogger : MulticastLogger) (message : Buffer UInt8 MAXLEN) {d : List UInt8}
    (h : d.length < MAXLEN) :
    ∃ message', turn networkLogger message d = .ok (obey networkLogger (cstr d), message') := by
  have htake : d.take MAXLEN = d := List.take_of_length_le h.le
  have hfront : 0 + d.length ≤ MAXLEN := by omega
  have hend : d.length + [(0 : UInt8)].length ≤ MAXLEN := h
  have hdatagram := drop_write message hfront
  rw [List.drop_zero, Nat.zero_add] at hdatagram
  have hbefore := take_write_of_le (message.write 0 d) [0] (le_refl d.length)
  rw [hdatagram, List.take_left] at hbefore
  have hafter := drop_write (message.write 0 d) hend
  have hcommand : cstr (List.ofFn ((message.write 0 d).write d.length [0])) = cstr d := by
    rw [← List.take_append_drop d.length (List.ofFn _), hbefore, hafter]
    exact cstr_append_nul d _
  refine ⟨(message.write 0 d).write d.length [0], ?_⟩
  unfold turn
  rw [htake, store_ok message hfront]
  simp only [bind, Except.bind, store_ok _ hend, hcommand, pure, Except.pure]

theorem length_lt_of_turn {networkLogger : MulticastLogger} {message : Buffer UInt8 MAXLEN}
    {d : List UInt8} {r : MulticastLogger × Buffer UInt8 MAXLEN}
    (h : turn networkLogger message d = .ok r) : d.length < MAXLEN := by
  unfold turn at h
  obtain ⟨message', -, h⟩ := bind_eq_ok h
  obtain ⟨message'', hstore, -⟩ := bind_eq_ok h
  have hroom := le_of_store hstore
  rw [List.length_take, List.length_singleton] at hroom
  omega

/-- The thread obeys the commands in the order in which they come, whatever an earlier
datagram left in the buffer. -/
theorem commands_ok (networkLogger : MulticastLogger) (message : Buffer UInt8 MAXLEN)
    {ds : List (List UInt8)} (h : ∀ d ∈ ds, d.length < MAXLEN) :
    ∃ message', process_network_logging_commands networkLogger message ds =
      .ok (ds.foldl (fun networkLogger d => obey networkLogger (cstr d)) networkLogger,
        message') := by
  induction ds generalizing networkLogger message with
  | nil => exact ⟨message, rfl⟩
  | cons d ds ih =>
    obtain ⟨hd, hds⟩ := List.forall_mem_cons.mp h
    obtain ⟨message', hturn⟩ := turn_ok networkLogger message hd
    obtain ⟨message'', hrun⟩ := ih (obey networkLogger (cstr d)) message' hds
    refine ⟨message'', ?_⟩
    rw [process_network_logging_commands, hturn]
    exact hrun

theorem commands_inside_iff (networkLogger : MulticastLogger) (message : Buffer UInt8 MAXLEN)
    (ds : List (List UInt8)) :
    (∃ r, process_network_logging_commands networkLogger message ds = .ok r) ↔
      ∀ d ∈ ds, d.length < MAXLEN := by
  refine ⟨?_, ?_⟩
  · intro ⟨r, h⟩
    induction ds generalizing networkLogger message with
    | nil => simp
    | cons d ds ih =>
      rw [process_network_logging_commands] at h
      obtain ⟨⟨networkLogger', message'⟩, hturn, h⟩ := bind_eq_ok h
      exact List.forall_mem_cons.mpr ⟨length_lt_of_turn hturn, ih networkLogger' message' h⟩
  · intro h
    obtain ⟨message', hrun⟩ := commands_ok networkLogger message h
    exact ⟨_, hrun⟩

/-! ## Inside the buffers -/

/-- The logger stays inside its table and its message exactly for the lines that fit, and
the command thread inside its buffer exactly for the datagrams that leave room for the
terminator. -/
theorem the_logger_stays_inside_iff (networkLogger : MulticastLogger) (pStr : CString MAXMSG)
    (module : CString 64) (nType : Int) (message : Buffer UInt8 MAXLEN)
    (ds : List (List UInt8)) :
    (Inside networkLogger pStr.bytes nType module.bytes ↔ Fits nType module.bytes pStr.bytes) ∧
      ((∃ r, process_network_logging_commands networkLogger message ds = .ok r) ↔
        ∀ d ∈ ds, d.length < MAXLEN) := by
  refine ⟨?_, ?_⟩
  · exact inside_iff networkLogger nType pStr.nul_not_mem module.nul_not_mem
  · exact commands_inside_iff networkLogger message ds

/-- A logger that sends nothing. -/
def quiet : MulticastLogger :=
  { networkLoggingEnabled := false, unicastLoggingEnabled := false, seq := 0 }

def noName : CString 64 := ⟨[], List.not_mem_nil, by decide⟩

def shortText : CString MAXMSG := ⟨chars "x", by decide +kernel, by decide⟩

/-- A text of 1380 characters. -/
def longText : CString MAXMSG :=
  ⟨List.replicate 1380 120, fun h => absurd (List.eq_of_mem_replicate h) (by decide),
    by rw [List.length_replicate]; decide⟩

/-- A call with the last level, one with a long text, and a datagram as long as the buffer
leave their objects, though nothing is to be sent. -/
theorem the_logger_leaves_its_buffers :
    ¬ Inside quiet shortText.bytes HSLOG_PANIC noName.bytes ∧
      ¬ Inside quiet longText.bytes HSLOG_LIVE noName.bytes ∧
      ¬ ∃ r, process_network_logging_commands quiet (fun _ => 0) [List.replicate MAXLEN 0] =
        .ok r := by
  refine ⟨?_, ?_, ?_⟩
  · rintro ⟨networkLogger', r, hrun, -⟩
    obtain ⟨⟨-, hlevel⟩, -⟩ := fits_of_hslog_to_network hrun
    exact lt_irrefl _ hlevel
  · rintro ⟨networkLogger', r, hrun, -⟩
    obtain ⟨-, hroom⟩ := fits_of_hslog_to_network hrun
    have hname : (severityOf HSLOG_LIVE).length = 4 := by decide
    have htext : longText.bytes.length = 1380 := List.length_replicate
    rw [hname, htext] at hroom
    exact absurd hroom (by decide)
  · intro hrun
    have hall := (commands_inside_iff quiet (fun _ => 0) [List.replicate MAXLEN 0]).mp hrun
    have hlt := hall _ List.mem_cons_self
    rw [List.length_replicate] at hlt
    exact lt_irrefl _ hlt

/-! ## A log call: `hslog` -/

/-- What `hslog` reads of `g_hslogCfg`. -/
structure HSlogConfig where
  sFileName : CString 64
  sModuleName : CString 64
  nFileLevel : UInt16
  nLogLevel : UInt16
  nToFile : Bool
  nPretty : Bool
  nSilent : Bool

structure HSlogTag where
  nType : Int
  pDesc : Option (List UInt8)
  pColor : List UInt8

def CLR_RESET : List UInt8 := chars "\x1b[0m"

/-- The color of the first row is NULL. No branch prints it. -/
def g_HSlogTags : List HSlogTag :=
  [⟨0, some (chars "NONE"), []⟩, ⟨1, some (chars "LIVE"), chars "\x1b[0m"⟩,
    ⟨2, some (chars "INFO"), chars "\x1b[32m"⟩, ⟨3, some (chars "WARN"), chars "\x1b[33m"⟩,
    ⟨4, some (chars "DEBUG"), chars "\x1b[34m"⟩, ⟨5, some (chars "ERROR"), chars "\x1b[31m"⟩,
    ⟨6, some (chars "FATAL"), chars "\x1b[31m"⟩, ⟨7, some (chars "PANIC"), chars "\x1b[37m"⟩]

/-- The date, and the module where it has a name. -/
def headOf (sModuleName sDate : List UInt8) : List UInt8 :=
  if 0 < sModuleName.length then sDate ++ chars " - " ++ sModuleName else sDate

/-- The loop of `hslog_prepare_output` over the rows from some row on. It has no end of its
own, so it reads on behind the last row. -/
def prepare (g_hslogCfg : HSlogConfig) (pStr sDate : List UInt8) (nType : Int) (nColor : Bool) :
    List HSlogTag → Except Fault (List UInt8)
  | [] => .error .load
  | tag :: tags =>
    let head := headOf g_hslogCfg.sModuleName.bytes sDate
    match tag.pDesc with
    | none =>
      if nType = HSLOG_NONE ∧ tag.nType = 0 then .ok (head ++ chars " - " ++ pStr)
      else prepare g_hslogCfg pStr sDate nType nColor tags
    | some pDesc =>
      if nType ≠ HSLOG_NONE ∧ tag.nType = nType then
        let desc := if nColor then tag.pColor ++ pDesc ++ CLR_RESET else pDesc
        .ok (head ++ chars " - [" ++ desc ++ chars "] " ++ pStr)
      else prepare g_hslogCfg pStr sDate nType nColor tags

/-- `hslog_prepare_output`: `pOut` after it. -/
def hslog_prepare_output (g_hslogCfg : HSlogConfig) (pStr sDate : List UInt8) (nType : Int)
    (nColor : Bool) (pOut : Buffer UInt8 MAXMSG) : Except Fault (Buffer UInt8 MAXMSG) := do
  let text ← prepare g_hslogCfg pStr sDate nType nColor g_HSlogTags
  store pOut 0 (snprintf MAXMSG text)

/-- What a log call writes: to the standard output, to the file and to the network. -/
structure Written where
  printed : Option (List UInt8)
  filed : Option (List UInt8 × List UInt8)
  logged : Option Logged

/-- The level is one that the configuration keeps silent. -/
def Silenced (g_hslogCfg : HSlogConfig) (nFlag : Int) : Prop :=
  g_hslogCfg.nSilent ∧ (nFlag = HSLOG_DEBUG ∨ nFlag = HSLOG_LIVE)

/-- The level is one that the configuration wants on the standard output or in the file. -/
def Wanted (g_hslogCfg : HSlogConfig) (nFlag : Int) : Prop :=
  g_hslogCfg.nLogLevel.toNat ≤ nFlag ∨ g_hslogCfg.nFileLevel.toNat ≤ nFlag

instance (g_hslogCfg : HSlogConfig) (nFlag : Int) : Decidable (Silenced g_hslogCfg nFlag) :=
  inferInstanceAs (Decidable (_ ∧ _))

instance (g_hslogCfg : HSlogConfig) (nFlag : Int) : Decidable (Wanted g_hslogCfg nFlag) :=
  inferInstanceAs (Decidable (_ ∨ _))

/-- What `hslog` does with the text of a level that is wanted. -/
def writeLog (g_hslogCfg : HSlogConfig) (networkLogger : MulticastLogger) (sDate : CString 32)
    (nFlag : Int) (sInput : List UInt8) : Except Fault (MulticastLogger × Written) := do
  let sMessage ←
    hslog_prepare_output g_hslogCfg sInput sDate.bytes nFlag g_hslogCfg.nPretty fun _ => 0
  let sMessage := cstr (List.ofFn sMessage)
  let (networkLogger, logged) ←
    hslog_to_network networkLogger sInput nFlag g_hslogCfg.sModuleName.bytes
  return (networkLogger,
    { printed := if g_hslogCfg.nLogLevel.toNat ≤ nFlag then some sMessage else none
      filed :=
        if g_hslogCfg.nToFile ∧ g_hslogCfg.nFileLevel.toNat ≤ nFlag then
          some (g_hslogCfg.sFileName.bytes, sMessage)
        else none
      logged := some logged })

/-- `hslog`, for the text that `vsprintf` makes of its arguments and the date of the
clock. -/
def hslog (g_hslogCfg : HSlogConfig) (networkLogger : MulticastLogger) (sDate : CString 32)
    (nFlag : Int) (text : List UInt8) : Except Fault (MulticastLogger × Written) :=
  if Silenced g_hslogCfg nFlag then .ok (networkLogger, ⟨none, none, none⟩)
  else do
    let sInput ← store (fun _ => 0 : Buffer UInt8 MAXMSG) 0 (text ++ [0])
    if Wanted g_hslogCfg nFlag then
      writeLog g_hslogCfg networkLogger sDate nFlag (cstr (List.ofFn sInput))
    else return (networkLogger, ⟨none, none, none⟩)

/-- Where every row has a name the loop ends at the row of the level only, and never for
`HSLOG_NONE`. -/
theorem prepare_ok_iff (g_hslogCfg : HSlogConfig) (pStr sDate : List UInt8) (nType : Int)
    (nColor : Bool) {tags : List HSlogTag} (htags : ∀ tag ∈ tags, tag.pDesc ≠ none) :
    (∃ text, prepare g_hslogCfg pStr sDate nType nColor tags = .ok text) ↔
      nType ≠ HSLOG_NONE ∧ nType ∈ tags.map HSlogTag.nType := by
  induction tags with
  | nil => simp [prepare]
  | cons tag tags ih =>
    obtain ⟨hdesc, htags⟩ := List.forall_mem_cons.mp htags
    obtain ⟨pDesc, hdesc⟩ := Option.ne_none_iff_exists'.mp hdesc
    have ih := ih htags
    simp only [prepare, hdesc, List.map_cons, List.mem_cons]
    by_cases hrow : nType ≠ HSLOG_NONE ∧ tag.nType = nType
    · rw [if_pos hrow]
      exact iff_of_true ⟨_, rfl⟩ ⟨hrow.1, Or.inl hrow.2.symm⟩
    · rw [if_neg hrow, ih]
      refine ⟨fun ⟨hne, htag⟩ => ⟨hne, Or.inr htag⟩, ?_⟩
      rintro ⟨hne, htag | htag⟩
      · exact absurd ⟨hne, htag.symm⟩ hrow
      · exact ⟨hne, htag⟩

theorem hslog_prepare_output_ok_iff (g_hslogCfg : HSlogConfig) (pStr sDate : List UInt8)
    (nType : Int) (nColor : Bool) (pOut : Buffer UInt8 MAXMSG) :
    (∃ pOut', hslog_prepare_output g_hslogCfg pStr sDate nType nColor pOut = .ok pOut') ↔
      HSLOG_NONE < nType ∧ nType ≤ HSLOG_PANIC := by
  have hrows : nType ≠ HSLOG_NONE ∧ nType ∈ g_HSlogTags.map HSlogTag.nType ↔
      HSLOG_NONE < nType ∧ nType ≤ HSLOG_PANIC := by
    simp only [g_HSlogTags, List.map_cons, List.map_nil, List.mem_cons, List.not_mem_nil,
      or_false, HSLOG_NONE, HSLOG_PANIC]
    omega
  have hnamed : ∀ tag ∈ g_HSlogTags, tag.pDesc ≠ none := by simp [g_HSlogTags]
  have hroom : ∀ text, 0 + (snprintf MAXMSG text).length ≤ MAXMSG := by
    intro text
    rw [snprintf_length]
    simp only [MAXMSG]
    omega
  unfold hslog_prepare_output
  rw [← hrows, ← prepare_ok_iff g_hslogCfg pStr sDate nType nColor hnamed,
    exists_bind_eq_ok_iff]
  refine exists_congr fun text => and_iff_left ?_
  exact ⟨_, store_ok pOut (hroom text)⟩

theorem writeLog_ok_iff (g_hslogCfg : HSlogConfig) (networkLogger : MulticastLogger)
    (sDate : CString 32) (nFlag : Int) {sInput : List UInt8} (h : 0 ∉ sInput) :
    (∃ r, writeLog g_hslogCfg networkLogger sDate nFlag sInput = .ok r) ↔
      HSLOG_NONE < nFlag ∧ Fits nFlag g_hslogCfg.sModuleName.bytes sInput := by
  unfold writeLog
  refine ⟨?_, ?_⟩
  · rintro ⟨r, hrun⟩
    obtain ⟨sMessage, hprepare, hrun⟩ := bind_eq_ok hrun
    obtain ⟨logged, hnetwork, -⟩ := bind_eq_ok hrun
    obtain ⟨hlevel, -⟩ := (hslog_prepare_output_ok_iff ..).mp ⟨sMessage, hprepare⟩
    exact ⟨hlevel, fits_of_hslog_to_network hnetwork⟩
  · rintro ⟨hlevel, hfits⟩
    obtain ⟨sMessage, hprepare⟩ := (hslog_prepare_output_ok_iff g_hslogCfg sInput sDate.bytes
      nFlag g_hslogCfg.nPretty fun _ => 0).mpr ⟨hlevel, hfits.1.2.le⟩
    obtain ⟨msg, rest, hnetwork, -⟩ := hslog_to_network_ok networkLogger hfits
      g_hslogCfg.sModuleName.nul_not_mem h rfl rfl
    rw [hprepare]
    simp only [bind, Except.bind]
    rw [hnetwork]
    exact ⟨_, rfl⟩

/-- A log call stays inside its buffers exactly where it is dropped, or its text fits into
`sInput` and, for a level that is wanted, both tables have a row for the level and the line
fits. Whether anything is sent makes no difference. -/
theorem hslog_ok_iff (g_hslogCfg : HSlogConfig) (networkLogger : MulticastLogger)
    (sDate : CString 32) (nFlag : Int) (text : List UInt8) :
    (∃ r, hslog g_hslogCfg networkLogger sDate nFlag text = .ok r) ↔
      Silenced g_hslogCfg nFlag ∨ text.length < MAXMSG ∧
        (Wanted g_hslogCfg nFlag →
          HSLOG_NONE < nFlag ∧ Fits nFlag g_hslogCfg.sModuleName.bytes (cstr text)) := by
  unfold hslog
  by_cases hsilent : Silenced g_hslogCfg nFlag
  · rw [if_pos hsilent]
    exact iff_of_true ⟨_, rfl⟩ (Or.inl hsilent)
  rw [if_neg hsilent, or_iff_right hsilent]
  by_cases hlt : text.length < MAXMSG
  · have hroom : 0 + (text ++ [0]).length ≤ MAXMSG := by
      rw [List.length_append, List.length_singleton]
      omega
    rw [store_ok _ hroom, and_iff_right hlt]
    simp only [bind, Except.bind, cstr_write _ hroom]
    by_cases hwanted : Wanted g_hslogCfg nFlag
    · rw [if_pos hwanted, imp_iff_right hwanted]
      exact writeLog_ok_iff g_hslogCfg networkLogger sDate nFlag (zero_not_mem_cstr text)
    · rw [if_neg hwanted]
      exact iff_of_true ⟨_, rfl⟩ fun h => absurd h hwanted
  · refine iff_of_false ?_ fun h => hlt h.1
    rintro ⟨r, hrun⟩
    obtain ⟨sInput, hstore, -⟩ := bind_eq_ok hrun
    have hroom := le_of_store hstore
    rw [List.length_append, List.length_singleton] at hroom
    omega

end hs_log

end udp_service
