-- What the network logger puts on the network. Every line that the log wants has a number,
-- wherever it goes, and the datagrams of the unicast log carry it. So a receiver knows how many
-- lines it did not get.
import UdpService.LogConfig
import UdpService.Lib.LittleEndian

open access cstrings runs little_endian

namespace udp_service

namespace log_stream

open hs_log log_config hs_config_file_reader

/-! ## What a run logs, and what it sends -/

/-- What an event sends. A call that faults ends the process. -/
def sentBy (l : Logger) : Event → List Sent
  | .log sDate nFlag text =>
    match hslog l.g_hslogCfg.read l.networkLogger sDate nFlag text with
    | .ok r => (r.2.logged.map Logged.sent).getD []
    | .error _ => []
  | _ => []

/-- A line that the log wants: its level, its text, and where it goes. -/
structure Entry where
  nFlag : Int
  text : List UInt8
  multicast : Bool
  unicast : Bool

/-- The line of a call that is not dropped. -/
def entryOf (l : Logger) : Event → Option Entry
  | .log _ nFlag text =>
    if ¬ Silenced l.g_hslogCfg.read nFlag ∧ Wanted l.g_hslogCfg.read nFlag then
      some
        { nFlag
          text := line (severityOf nFlag) l.g_hslogCfg.sModuleName.bytes (cstr text)
          multicast := l.networkLogger.networkLoggingEnabled
          unicast := l.networkLogger.unicastLoggingEnabled }
    else none
  | _ => none

/-- The datagrams of a run. -/
def sentIn (l : Logger) (es : List Event) : List Sent := outputs step sentBy l es

/-- The lines of a run. -/
def entries (l : Logger) (es : List Event) : List Entry :=
  outputs step (fun l e => (entryOf l e).toList) l es

/-- The header of a line with a number. -/
def Entry.hdr (x : Entry) (seq : UInt32) : IcdHslogHdr :=
  { seq, len := UInt16.ofNat (x.text.length + HDR_SIZE), module := UDP_SRV
    loglevel := UInt8.ofInt x.nFlag }

/-- What goes out of a line with a number. -/
def Entry.sent (x : Entry) (seq : UInt32) : List Sent :=
  (if x.multicast then [.mcast_group x.text] else []) ++
    if x.unicast then [.servaddr ((x.hdr seq).bytes ++ x.text)] else []

/-- The text has room in a message, behind the header. -/
def Entry.Short (x : Entry) : Prop := x.text.length < MSG_SIZE - HDR_SIZE

/-- A call that is wanted takes the next number, and what it sends is its line. -/
theorem writeLog_sent {c : HSlogConfig} {n : MulticastLogger} {sDate : CString 32} {nFlag : Int}
    {sInput : List UInt8} {r : MulticastLogger × Written} (hnul : 0 ∉ sInput)
    (h : writeLog c n sDate nFlag sInput = .ok r) :
    let x : Entry := ⟨nFlag, line (severityOf nFlag) c.sModuleName.bytes sInput,
      n.networkLoggingEnabled, n.unicastLoggingEnabled⟩
    x.Short ∧ r.1.seq = n.seq + 1 ∧
      (r.2.logged.map Logged.sent).getD [] = x.sent (n.seq + 1).toUInt32 := by
  obtain ⟨-, hfits⟩ := (writeLog_ok_iff c n sDate nFlag hnul).mp ⟨r, h⟩
  obtain ⟨msg, rest, hnetwork, -⟩ :=
    hslog_to_network_ok n hfits c.sModuleName.nul_not_mem hnul rfl rfl
  unfold writeLog at h
  obtain ⟨sMessage, -, h⟩ := bind_eq_ok h
  obtain ⟨logged, hlogged, h⟩ := bind_eq_ok h
  rw [hnetwork] at hlogged
  cases hlogged
  cases h
  exact ⟨hfits.room, rfl, rfl⟩

theorem hslog_sent {l : Logger} {sDate : CString 32} {nFlag : Int} {text : List UInt8}
    {r : MulticastLogger × Written}
    (h : hslog l.g_hslogCfg.read l.networkLogger sDate nFlag text = .ok r) :
    (∀ x ∈ entryOf l (.log sDate nFlag text), x.Short) ∧
      r.1.seq = l.networkLogger.seq +
        Int32.ofNat (entryOf l (.log sDate nFlag text)).toList.length ∧
      (r.2.logged.map Logged.sent).getD [] = (entryOf l (.log sDate nFlag text)).toList.flatMap
        fun x => x.sent (l.networkLogger.seq + 1).toUInt32 := by
  simp only [entryOf]
  unfold hslog at h
  by_cases hsilent : Silenced l.g_hslogCfg.read nFlag
  · rw [if_pos hsilent] at h
    cases h
    simp [hsilent]
  rw [if_neg hsilent] at h
  obtain ⟨sInput, hstore, h⟩ := bind_eq_ok h
  by_cases hwanted : Wanted l.g_hslogCfg.read nFlag
  · have hroom := le_of_store hstore
    rw [store_ok _ hroom] at hstore
    cases hstore
    rw [if_pos hwanted, cstr_write _ hroom] at h
    obtain ⟨hshort, hseq, hsent⟩ := writeLog_sent (zero_not_mem_cstr text) h
    rw [if_pos ⟨hsilent, hwanted⟩]
    refine ⟨?_, hseq, ?_⟩
    · rintro x ⟨⟩
      exact hshort
    · rw [hsent]
      simp [LogConfig.read]
  · rw [if_neg hwanted] at h
    cases h
    simp [hwanted]

/-- What one event does: its line takes the next number, short enough for a message, and is
what goes out. An event with no line sends nothing and takes no number. -/
theorem step_entry {l u : Logger} {e : Event} (hs : step l e = some u) :
    (∀ x ∈ entryOf l e, x.Short) ∧
      u.networkLogger.seq =
        l.networkLogger.seq + Int32.ofNat (entryOf l e).toList.length ∧
      sentBy l e = (entryOf l e).toList.flatMap fun x =>
        x.sent (l.networkLogger.seq + 1).toUInt32 := by
  cases e with
  | reload mutexOk pConf =>
    obtain rfl := step_reload hs
    exact ⟨by simp [entryOf], by simp [entryOf, switched], rfl⟩
  | command command =>
    cases hs
    refine ⟨by simp [entryOf], ?_, rfl⟩
    simp only [obey]
    split_ifs <;> simp [entryOf]
  | log sDate nFlag text =>
    obtain ⟨r, hlog, rfl⟩ := step_log hs
    rw [sentBy, hlog]
    exact hslog_sent hlog

section runs

variable {l u : Logger} {es : List Event}

/-- A run numbers its lines one after the other, and what goes out of it is its lines in their
order, each with its number. -/
theorem run_entries {k : Nat} (hseq : l.networkLogger.seq = Int32.ofNat k)
    (hr : run step l es = some u) :
    (∀ x ∈ entries l es, x.Short) ∧
      u.networkLogger.seq = Int32.ofNat (k + (entries l es).length) ∧
      sentIn l es =
        ((entries l es).zipIdx (k + 1)).flatMap fun p => p.1.sent (UInt32.ofNat p.2) := by
  induction es generalizing l k with
  | nil =>
    cases hr
    exact ⟨by simp [entries, outputs], hseq, rfl⟩
  | cons e es ih =>
    obtain ⟨v, hv, hr'⟩ := run_cons_eq_some.mp hr
    obtain ⟨hshort, hnext, hsent⟩ := step_entry hv
    rw [hseq, ← Int32.ofNat_add] at hnext
    obtain ⟨hshorts, hlast, hrest⟩ := ih hnext hr'
    have hentries : entries l (e :: es) = (entryOf l e).toList ++ entries v es := outputs_cons hv
    have hsentIn : sentIn l (e :: es) = sentBy l e ++ sentIn v es := outputs_cons hv
    rw [hentries, hsentIn]
    refine ⟨?_, ?_, ?_⟩
    · intro x hx
      rcases List.mem_append.mp hx with hx | hx
      · exact hshort x (Option.mem_toList.mp hx)
      · exact hshorts x hx
    · rw [hlast, List.length_append, Nat.add_assoc]
    · rw [List.zipIdx_append, List.flatMap_append, hrest, hsent, hseq]
      congr 1
      · have hnumber : (Int32.ofNat k + 1).toUInt32 = UInt32.ofNat (k + 1) := by
          rw [UInt32.ofNat_add]
          rfl
        rw [hnumber]
        cases entryOf l e with
        | none => rfl
        | some x => simp
      · rw [Nat.add_right_comm]

end runs

/-! ## The receiver -/

/-- What the header of a datagram and the bytes behind it say. -/
structure Received where
  hdr : IcdHslogHdr
  text : List UInt8
deriving DecidableEq

/-- A datagram as its receiver reads it. The length field says how long it is. -/
def receive (d : List UInt8) : Option Received :=
  let hdr : IcdHslogHdr :=
    { seq := UInt32.ofNat (ofLe (d.take 4))
      len := UInt16.ofNat (ofLe ((d.drop 4).take 2))
      module := d.getD 6 0
      loglevel := d.getD 7 0 }
  if HDR_SIZE ≤ d.length ∧ hdr.len.toNat = d.length then some ⟨hdr, d.drop HDR_SIZE⟩ else none

theorem bytes_eq (h : IcdHslogHdr) :
    h.bytes = le 4 h.seq.toNat ++ (le 2 h.len.toNat ++ [h.module, h.loglevel]) := by
  simp only [IcdHslogHdr.bytes, le, List.cons_append, List.nil_append, List.cons.injEq,
    ← UInt8.toNat_inj]
  simp [Nat.shiftRight_eq_div_pow, Nat.div_div_eq_div_mul]

/-- The receiver reads back what was put in front of a text. -/
theorem receive_bytes {hdr : IcdHslogHdr} {text : List UInt8}
    (hlen : hdr.len.toNat = HDR_SIZE + text.length) :
    receive (hdr.bytes ++ text) = some ⟨hdr, text⟩ := by
  have hseq : ofLe ((hdr.bytes ++ text).take 4) = hdr.seq.toNat := by
    rw [bytes_eq, List.append_assoc, List.take_left' (le_length 4 _)]
    exact ofLe_le_of_lt hdr.seq.toNat_lt
  have hlenBack : ofLe (((hdr.bytes ++ text).drop 4).take 2) = hdr.len.toNat := by
    rw [bytes_eq, List.append_assoc, List.drop_left' (le_length 4 _), List.append_assoc,
      List.take_left' (le_length 2 _)]
    exact ofLe_le_of_lt hdr.len.toNat_lt
  have hsize : (hdr.bytes ++ text).length = hdr.len.toNat := by
    rw [hlen]
    exact List.length_append
  have htext : (hdr.bytes ++ text).drop HDR_SIZE = text := List.drop_left' rfl
  have hfront : HDR_SIZE ≤ hdr.len.toNat := by
    rw [hlen]
    exact Nat.le_add_right _ _
  unfold receive
  simp only [hseq, hlenBack, UInt32.ofNat_toNat, UInt16.ofNat_toNat, hsize, htext]
  rw [if_pos ⟨hfront, trivial⟩]
  rfl

/-- What comes to the group, and what comes to the server. -/
def toGroup : Sent → Option (List UInt8)
  | .mcast_group bytes => some bytes
  | .servaddr _ => none

def toServer : Sent → Option (List UInt8)
  | .mcast_group _ => none
  | .servaddr bytes => some bytes

/-- A line with a number, as it is received. -/
def Entry.received (x : Entry) (seq : UInt32) : Received := ⟨x.hdr seq, x.text⟩

/-- A line with a number, as it is sent to the server. -/
def Entry.datagram (x : Entry) (seq : UInt32) : List UInt8 := (x.hdr seq).bytes ++ x.text

theorem receive_datagram {x : Entry} (h : x.Short) (seq : UInt32) :
    receive (x.datagram seq) = some (x.received seq) := by
  have hlt : x.text.length < 1392 := h
  apply receive_bytes
  simp only [Entry.hdr, UInt16.toNat_ofNat', HDR_SIZE]
  omega

theorem toGroup_sent (lines : List (Entry × Nat)) :
    (lines.flatMap fun p => p.1.sent (UInt32.ofNat p.2)).filterMap toGroup =
      (lines.filter fun p => p.1.multicast).map fun p => p.1.text := by
  induction lines with
  | nil => rfl
  | cons p lines ih =>
    obtain ⟨x, k⟩ := p
    rw [List.flatMap_cons, List.filterMap_append, ih, Entry.sent]
    cases hm : x.multicast <;> cases hu : x.unicast <;> simp [hm, toGroup]

theorem toServer_sent (lines : List (Entry × Nat)) :
    (lines.flatMap fun p => p.1.sent (UInt32.ofNat p.2)).filterMap toServer =
      (lines.filter fun p => p.1.unicast).map fun p => p.1.datagram (UInt32.ofNat p.2) := by
  induction lines with
  | nil => rfl
  | cons p lines ih =>
    obtain ⟨x, k⟩ := p
    rw [List.flatMap_cons, List.filterMap_append, ih, Entry.sent]
    cases hm : x.multicast <;> cases hu : x.unicast <;>
      simp [hu, List.filterMap_cons, toServer, Entry.datagram]

/-- How many numbers are left out behind `n`. -/
def gaps : Nat → List Nat → Nat
  | _, [] => 0
  | n, k :: ks => k - (n + 1) + gaps k ks

/-- How many lines a receiver sees that it did not get. -/
def missed (got : List Received) : Nat := gaps 0 (got.map fun r => r.hdr.seq.toNat)

/-- Among numbers that grow, the gaps and the numbers make up the last one. -/
theorem gaps_add_length {n k : Nat} {ks : List Nat} (h : (n :: ks).Pairwise (· < ·))
    (hlast : ks.getLast? = some k) : n + gaps n ks + ks.length = k := by
  induction ks generalizing n with
  | nil => cases hlast
  | cons m ks ih =>
    obtain ⟨hn, hks⟩ := List.pairwise_cons.mp h
    have hlt : n < m := hn m List.mem_cons_self
    rw [gaps, List.length_cons]
    cases ks with
    | nil =>
      obtain rfl : m = k := Option.some.inj hlast
      simp only [gaps, List.length_nil]
      omega
    | cons m' ks =>
      rw [List.getLast?_cons_cons] at hlast
      have hrest := ih hks hlast
      omega

theorem zipIdx_numbers (xs : List Entry) : (0 :: (xs.zipIdx 1).map Prod.snd).Pairwise (· < ·) := by
  have hall : (List.range' 0 (xs.length + 1)).Pairwise (· < ·) := List.pairwise_lt_range'
  rw [List.zipIdx_map_snd]
  exact hall

/-- Some of the numbered lines, as they are received. The gaps and the lines make up the number
of the last one, if the numbers have not come round. -/
theorem missed_received {xs : List Entry} {lines : List (Entry × Nat)} {x : Entry} {k : Nat}
    (hsub : lines.Sublist (xs.zipIdx 1)) (hlt : xs.length < 2 ^ 31)
    (hlast : lines.getLast? = some (x, k)) :
    missed (lines.map fun p => p.1.received (UInt32.ofNat p.2)) + lines.length = k := by
  have hnumbers : (lines.map fun p => p.1.received (UInt32.ofNat p.2)).map
      (fun r => r.hdr.seq.toNat) = lines.map Prod.snd := by
    rw [List.map_map]
    apply List.map_congr_left
    rintro ⟨y, m⟩ hm
    obtain ⟨-, hle, -⟩ := List.mem_zipIdx (hsub.subset hm)
    exact UInt32.toNat_ofNat_of_lt' (by simp only [UInt32.size]; omega)
  have hgrow : (0 :: lines.map Prod.snd).Pairwise (· < ·) :=
    (zipIdx_numbers xs).sublist ((hsub.map Prod.snd).cons_cons 0)
  have hk : (lines.map Prod.snd).getLast? = some k := by
    rw [List.getLast?_map, hlast]
    rfl
  have hall := gaps_add_length hgrow hk
  rw [List.length_map] at hall
  rw [missed, hnumbers]
  omega

/-- In every run of reloads, commands and log calls after `main`, every line that the log wants
takes the next number, whatever a reload does to the settings. The group gets the texts of the
lines of the time when it is switched on, the server those of the time when it is, each behind a
header with its number, its length and its level. Whatever of the datagrams gets lost on the way
to the server, it sees how many lines there were up to the last one that came. All this as long
as fewer than 2^31 lines were logged: `seq` has no room for more. -/
theorem the_server_sees_how_many_lines_it_missed {l u : Logger} {es : List Event}
    {mutexOk : Bool} {g_hslogCfg slgCfg : LogConfig} {pConf : Option (List UInt8)}
    (hstart : main mutexOk g_hslogCfg slgCfg pConf = .ok l) (hr : run step l es = some u)
    (hlines : (entries l es).length < 2 ^ 31) :
    (sentIn l es).filterMap toGroup =
        ((entries l es).filter Entry.multicast).map Entry.text ∧
      ((sentIn l es).filterMap toServer).map receive =
        (((entries l es).zipIdx 1).filter fun p => p.1.unicast).map
          (fun p => some (p.1.received (UInt32.ofNat p.2))) ∧
      ∀ got, got.Sublist ((sentIn l es).filterMap toServer) → got ≠ [] →
        ∃ k x, (entries l es)[k]? = some x ∧
          (got.filterMap receive).getLast? = some (x.received (UInt32.ofNat (k + 1))) ∧
          missed (got.filterMap receive) + got.length = k + 1 := by
  obtain ⟨l₀, hfirst, -, hnetwork⟩ := main_settings hstart
  have hseq : l.networkLogger.seq = Int32.ofNat 0 := by
    obtain ⟨-, hseq, -⟩ := step_entry hfirst
    rw [hnetwork, hseq]
    rfl
  obtain ⟨hshort, -, hsent⟩ := run_entries hseq hr
  have hserver : (sentIn l es).filterMap toServer =
      (((entries l es).zipIdx 1).filter fun p => p.1.unicast).map
        fun p => p.1.datagram (UInt32.ofNat p.2) := by
    rw [hsent, toServer_sent]
  have hread : ∀ p ∈ (entries l es).zipIdx 1, receive (p.1.datagram (UInt32.ofNat p.2)) =
      some (p.1.received (UInt32.ofNat p.2)) := by
    intro p hp
    exact receive_datagram (hshort p.1 (List.fst_mem_of_mem_zipIdx hp)) _
  refine ⟨?_, ?_, ?_⟩
  · rw [hsent, toGroup_sent]
    conv_rhs => rw [← List.zipIdx_map_fst 1 (entries l es), List.filter_map, List.map_map]
    rfl
  · rw [hserver, List.map_map]
    exact List.map_congr_left fun p hp => hread p (List.mem_of_mem_filter hp)
  · intro got hgot hne
    rw [hserver] at hgot
    obtain ⟨lines, hsub, rfl⟩ := List.sublist_map_iff.mp hgot
    have hall : lines.Sublist ((entries l es).zipIdx 1) := hsub.trans List.filter_sublist
    have hback : (lines.map fun p => p.1.datagram (UInt32.ofNat p.2)).filterMap receive =
        lines.map fun p => p.1.received (UInt32.ofNat p.2) := by
      rw [List.filterMap_map, ← List.filterMap_eq_map]
      exact List.filterMap_congr fun p hp => hread p (hall.subset hp)
    obtain ⟨⟨x, m⟩, hlast⟩ : ∃ p, lines.getLast? = some p :=
      Option.ne_none_iff_exists'.mp fun h => hne (by rw [List.getLast?_eq_none_iff.mp h]; rfl)
    obtain ⟨hpos, -, -⟩ := List.mem_zipIdx (hall.subset (List.mem_of_getLast? hlast))
    obtain ⟨k, rfl⟩ := Nat.exists_eq_add_of_le' hpos
    refine ⟨k, x, ?_, ?_, ?_⟩
    · exact (List.mem_zipIdx_iff_le_and_getElem?_sub.mp
        (hall.subset (List.mem_of_getLast? hlast))).2
    · rw [hback, List.getLast?_map, hlast]
      rfl
    · rw [hback, List.length_map]
      exact missed_received hall hlines hlast

/-- A short text at the first level that the tables know, logged. -/
def shortLine (sDate : CString 32) : Event := .log sDate HSLOG_LIVE (chars "x")

/-- The unicast log is on, and every level is wanted. -/
def Live (l : Logger) : Prop :=
  l.networkLogger.unicastLoggingEnabled = true ∧ l.g_hslogCfg.nSilent = false ∧
    l.g_hslogCfg.nLogLevel = 0

instance (l : Logger) : Decidable (Live l) := inferInstanceAs (Decidable (_ ∧ _))

theorem live_step {l : Logger} (h : Live l) (sDate : CString 32) : ∃ u x,
    step l (shortLine sDate) = some u ∧ Live u ∧ entryOf l (shortLine sDate) = some x ∧
      x.unicast = true := by
  obtain ⟨hunicast, hsilent, hlevel⟩ := h
  have hnot : ¬ Silenced l.g_hslogCfg.read HSLOG_LIVE := by
    simp [Silenced, LogConfig.read, hsilent]
  have hwanted : Wanted l.g_hslogCfg.read HSLOG_LIVE := by
    simp [Wanted, LogConfig.read, hlevel, HSLOG_LIVE]
  have hname := l.g_hslogCfg.sModuleName.length_lt
  have hseverity : (severityOf HSLOG_LIVE).length = 4 := by decide
  have htext : (cstr (chars "x")).length = 1 := by decide +kernel
  have hfits : Fits HSLOG_LIVE l.g_hslogCfg.read.sModuleName.bytes (cstr (chars "x")) := by
    refine ⟨by decide, ?_⟩
    simp only [hseverity, htext, LogConfig.read, MSG_SIZE, HDR_SIZE]
    omega
  obtain ⟨r, hlog⟩ :=
    (hslog_ok_iff l.g_hslogCfg.read l.networkLogger sDate HSLOG_LIVE (chars "x")).mpr
      (Or.inr ⟨by decide +kernel, fun _ => ⟨by decide, hfits⟩⟩)
  obtain ⟨u, hu⟩ : ∃ u, step l (shortLine sDate) = some u := by
    rw [shortLine, step, hlog]
    exact ⟨_, rfl⟩
  obtain ⟨hcfg, -, hswitch⟩ := step_settings hu
  have hsame : u.g_hslogCfg = l.g_hslogCfg := hcfg
  refine ⟨u, _, hu, ⟨hswitch.trans hunicast, ?_, ?_⟩, if_pos ⟨hnot, hwanted⟩, hunicast⟩
  · rw [hsame, hsilent]
  · rw [hsame, hlevel]

/-- Of two lines that go to the server the first one gets lost. -/
theorem the_first_of_two_lines_is_missed : ∃ sDate l u, ∃ got : List (List UInt8),
    main true (defaults noName 0 true) (defaults noName 0 true) (some (chars "UNICAST 1\n")) =
      .ok l ∧
    run step l [shortLine sDate, shortLine sDate] = some u ∧
    got.Sublist ((sentIn l [shortLine sDate, shortLine sDate]).filterMap toServer) ∧
    got.length = 1 ∧ missed (got.filterMap receive) = 1 := by
  have sDate : CString 32 := ⟨[], List.not_mem_nil, by decide⟩
  have hlive : (main true (defaults noName 0 true) (defaults noName 0 true)
      (some (chars "UNICAST 1\n"))).toOption.any (fun l => Live l) = true := by decide +kernel
  rcases hmain : main true (defaults noName 0 true) (defaults noName 0 true)
      (some (chars "UNICAST 1\n")) with e | l
  · rw [hmain] at hlive
    cases hlive
  rw [hmain] at hlive
  obtain ⟨v, x, hv, hvLive, hx, hxUnicast⟩ := live_step (of_decide_eq_true hlive) sDate
  obtain ⟨u, y, hu, -, hy, hyUnicast⟩ := live_step hvLive sDate
  have hrun : run step l [shortLine sDate, shortLine sDate] = some u :=
    run_cons_eq_some.mpr ⟨v, hv, run_cons_eq_some.mpr ⟨u, hu, rfl⟩⟩
  have hentries : entries l [shortLine sDate, shortLine sDate] = [x, y] := by
    rw [entries, outputs_cons hv, outputs_cons hu, hx, hy]
    rfl
  obtain ⟨-, hread, hmissed⟩ := the_server_sees_how_many_lines_it_missed hmain hrun
    (by simp [hentries])
  simp only [hentries, List.zipIdx_cons, List.zipIdx_nil, List.filter_cons, hxUnicast, hyUnicast,
    if_true, List.filter_nil, List.map_cons, List.map_nil, Nat.reduceAdd] at hread hmissed
  obtain ⟨a, rest, hsent, -, hrest⟩ := List.map_eq_cons_iff.mp hread
  obtain ⟨b, last, rfl, hb, hlast⟩ := List.map_eq_cons_iff.mp hrest
  obtain rfl := List.map_eq_nil_iff.mp hlast
  have hsub : [b].Sublist ((sentIn l [shortLine sDate, shortLine sDate]).filterMap toServer) := by
    rw [hsent]
    exact List.sublist_cons_self a [b]
  have hgot : [b].filterMap receive = [y.received 2] := List.filterMap_cons_some hb
  obtain ⟨k, z, hz, hend, hcount⟩ := hmissed [b] hsub (List.cons_ne_nil b [])
  refine ⟨sDate, l, u, [b], rfl, hrun, hsub, rfl, ?_⟩
  -- the line that came has the number 2, so one was there before it
  rw [hgot] at hend
  have hseq := congrArg (fun r => r.hdr.seq.toNat) (Option.some.inj hend)
  have hk : k < 2 := (List.getElem?_eq_some_iff.mp hz).1
  have hnumber : 2 = k + 1 := by
    interval_cases k
    · cases hseq
    · rfl
  rw [List.length_singleton] at hcount
  omega

end log_stream

end udp_service
