-- The configuration in the flash (conf_read.c): tagged fields `<s>..</s>` that one
-- tokeniser splits at every `<`.
import UdpService.Lib.Blocks
import UdpService.Lib.CStrings

open blocks cstrings

namespace udp_service

namespace conf_read

/-! ## The parser -/

@[simp] def SSID_TAG_CHAR : UInt8 := 115
@[simp] def WPA2_PSWD_TAG_CHAR : UInt8 := 112
@[simp] def BLE_ADDR_TAG_CHAR : UInt8 := 98
@[simp] def SERVICE_TAG_CHAR : UInt8 := 118
@[simp] def SATID_TAG_CHAR : UInt8 := 105

/-- `SSID_BUFF_SIZE`: 32 bytes and the tags around them. -/
@[simp] abbrev SSID_BUFF_SIZE : Nat := 39

/-- `WPA2_PSWD_BUFF_SIZE`: 63 bytes and the tags. -/
@[simp] abbrev WPA2_PSWD_BUFF_SIZE : Nat := 70

/-- `BEAM_NAME_MAX_SIZE`: 36 bytes and the tags. -/
@[simp] abbrev BEAM_NAME_MAX_SIZE : Nat := 43

@[simp] abbrev BLE_ADDR_SIZE : Nat := 6

/-- `sizeof(buff)` in `_read_config`. -/
@[simp] def BUFF_SIZE : Nat := 1024

/-- `conf_data_t`, without `conf_status`, which nothing reads or writes. -/
structure ConfData where
  ssid : Buffer UInt8 SSID_BUFF_SIZE
  wpa2_pswd : Buffer UInt8 WPA2_PSWD_BUFF_SIZE
  selected_beam : Buffer UInt8 BEAM_NAME_MAX_SIZE
  ble_addr : Buffer UInt8 BLE_ADDR_SIZE
  wpa2_pswd_len : UInt8
  ssid_len : UInt8
  beam_len : UInt8
  service_id : UInt8

/-- A configuration of zeroes. -/
def ConfData.zero : ConfData := ⟨fun _ => 0, fun _ => 0, fun _ => 0, fun _ => 0, 0, 0, 0, 0⟩

/-- Where the parser leaves what C defines. -/
inductive ReadFault
  /-- The token is NULL. -/
  | nullToken
  /-- A value or a search goes on past the end of `buff`. -/
  | outside
  /-- A copy is longer than its field. -/
  | tooLong
  | outOfFuel
deriving DecidableEq

/-- `strlen` of a value, in the 8 bits of a length field. -/
def length8 (v : List UInt8) : Except ReadFault UInt8 :=
  if 0 ∈ v then .ok (UInt8.ofNat (cstr v).length) else .error .outside

/-- The text after a tag: its length, and the bytes that `memcpy` takes. -/
def readText (size : Nat) (p : List UInt8) : Except ReadFault (UInt8 × List UInt8) :=
  let p := p.drop 2
  match length8 p with
  | .error e => .error e
  | .ok len => if len.toNat ≤ size then .ok (len, p.take len.toNat) else .error .tooLong

/-- The raw bytes after a tag. -/
def readRaw (size : Nat) (p : List UInt8) : Except ReadFault (List UInt8) :=
  let p := p.drop 2
  if size ≤ p.length then .ok (p.take size) else .error .outside

/-- The number after a tag. `atoi` is for strings that end. -/
def readNumber (p : List UInt8) : Except ReadFault UInt8 :=
  let p := p.drop 2
  if 0 ∈ p then .ok (UInt8.ofBitVec ((atoi p).setWidth 8)) else .error .outside

/-- The `switch` on the first character of a token. -/
def readToken (p : List UInt8) (conf : ConfData) : Except ReadFault ConfData :=
  match p.head? with
  | none => .error .outside
  | some c =>
    if c = SSID_TAG_CHAR then
      (readText SSID_BUFF_SIZE p).map fun (len, s) =>
        { conf with ssid_len := len, ssid := conf.ssid.write 0 s }
    else if c = WPA2_PSWD_TAG_CHAR then
      (readText WPA2_PSWD_BUFF_SIZE p).map fun (len, s) =>
        { conf with wpa2_pswd_len := len, wpa2_pswd := conf.wpa2_pswd.write 0 s }
    else if c = BLE_ADDR_TAG_CHAR then
      (readRaw BLE_ADDR_SIZE p).map fun s => { conf with ble_addr := conf.ble_addr.write 0 s }
    else if c = SERVICE_TAG_CHAR then
      (readNumber p).map fun n => { conf with service_id := n }
    else if c = SATID_TAG_CHAR then
      (readText BEAM_NAME_MAX_SIZE p).map fun (len, s) =>
        { conf with beam_len := len, selected_beam := conf.selected_beam.write 0 s }
    else .ok conf

/-- The loop, at the token `p`. -/
def token_loop : Nat → List UInt8 → List UInt8 → ConfData → Except ReadFault ConfData
  | 0, _, _, _ => .error .outOfFuel
  | fuel + 1, p, saveptr, conf =>
    match readToken p conf with
    | .error e => .error e
    | .ok conf =>
      match strtok_r 60 saveptr with
      | none => .error .outside
      | some (none, _) => .ok conf
      | some (some p, saveptr) => token_loop fuel p saveptr conf

/-- `read_config`, on the bytes of the device, or on a device that cannot be read. -/
def read_config (dev : Option (List UInt8)) (buff_size : Nat) : Option (List UInt8) :=
  dev.map fun flash =>
    flash.take buff_size ++ List.replicate (buff_size - (flash.take buff_size).length) 0

/-- `_read_config`: its return value, and the configuration after it. Each token takes a
byte at least, so the size of the buffer is fuel enough. -/
def _read_config (dev : Option (List UInt8)) (conf : ConfData) :
    Except ReadFault (Int × ConfData) :=
  match read_config dev BUFF_SIZE with
  | none => .ok (-1, conf)
  | some buff =>
    match strtok_r 60 buff with
    | none => .error .outside
    | some (none, _) => .error .nullToken
    | some (some p, saveptr) => (token_loop BUFF_SIZE p saveptr conf).map fun conf => (0, conf)

/-! ## The loop over the tokens -/

/-- The tokens one after the other. -/
def readAll : List (List UInt8) → ConfData → Except ReadFault ConfData
  | [], conf => .ok conf
  | p :: ps, conf =>
    match readToken (cut 60 p) conf with
    | .error e => .error e
    | .ok conf => readAll ps conf

theorem token_loop_eq {fuel : Nat} {p save : List UInt8} {ps : List (List UInt8)}
    (hs : 0 ∈ save) (hstarts : starts 60 true save = ps) (hf : ps.length < fuel)
    (conf : ConfData) : token_loop fuel (cut 60 p) save conf = readAll (p :: ps) conf := by
  induction ps generalizing fuel p save conf with
  | nil =>
    obtain ⟨fuel, rfl⟩ := Nat.exists_eq_succ_of_ne_zero (Nat.ne_of_gt (Nat.zero_lt_of_lt hf))
    obtain ⟨save', hnull⟩ := strtok_r_nil (by decide) hs hstarts
    rw [token_loop, readAll, hnull]
    rfl
  | cons q ps ih =>
    obtain ⟨fuel, rfl⟩ := Nat.exists_eq_succ_of_ne_zero (Nat.ne_of_gt (Nat.zero_lt_of_lt hf))
    obtain ⟨save', htok, hs', hstarts'⟩ := strtok_r_cons (by decide) hs hstarts
    rw [token_loop, readAll, htok]
    rcases readToken (cut 60 p) conf with e | conf'
    · rfl
    · exact ih hs' hstarts' (Nat.lt_of_succ_lt_succ hf) conf'

/-- In a string that never ends, the loop does not either, unless with a fault. -/
theorem token_loop_unterminated {fuel : Nat} {p save : List UInt8} (hs : 0 ∉ save)
    (conf : ConfData) : ∃ e, token_loop fuel p save conf = .error e := by
  induction fuel generalizing p save conf with
  | zero => exact ⟨_, rfl⟩
  | succ fuel ih =>
    rw [token_loop]
    rcases readToken p conf with e | conf'
    · exact ⟨e, rfl⟩
    · rcases strtok_r_unterminated (d := 60) hs with hnone | ⟨q, save', htok, hs'⟩
      · rw [hnone]
        exact ⟨_, rfl⟩
      · rw [htok]
        exact ih hs' conf'

/-- What `read_config1` delivers of a flash that can be read. -/
def delivered (flash : List UInt8) : List UInt8 :=
  flash.take BUFF_SIZE ++ List.replicate (BUFF_SIZE - (flash.take BUFF_SIZE).length) 0

theorem delivered_length (flash : List UInt8) : (delivered flash).length = BUFF_SIZE := by
  have hle := List.length_take_le BUFF_SIZE flash
  unfold delivered
  rw [List.length_append, List.length_replicate]
  omega

theorem read_config_eq {flash : List UInt8} (hs : 0 ∈ delivered flash) (conf : ConfData) :
    _read_config (some flash) conf =
      match starts 60 true (delivered flash) with
      | [] => .error .nullToken
      | p :: ps => (readAll (p :: ps) conf).map fun conf => (0, conf) := by
  have hread : read_config (some flash) BUFF_SIZE = some (delivered flash) := rfl
  have hlen := starts_length 60 true (delivered flash)
  rw [delivered_length] at hlen
  unfold _read_config
  simp only [hread]
  rcases hstarts : starts 60 true (delivered flash) with _ | ⟨p, ps⟩
  · obtain ⟨save, hnull⟩ := strtok_r_nil (by decide) hs hstarts
    rw [hnull]
  · obtain ⟨save, htok, hs', hstarts'⟩ := strtok_r_cons (by decide) hs hstarts
    rw [hstarts, List.length_cons] at hlen
    simp only [htok, token_loop_eq hs' hstarts' hlen]

theorem read_config_unterminated {flash : List UInt8} (hs : 0 ∉ delivered flash)
    (conf : ConfData) : ∃ e, _read_config (some flash) conf = .error e := by
  have hread : read_config (some flash) BUFF_SIZE = some (delivered flash) := rfl
  unfold _read_config
  simp only [hread]
  rcases strtok_r_unterminated (d := 60) hs with hnone | ⟨p, save, htok, hs'⟩
  · rw [hnone]
    exact ⟨_, rfl⟩
  · have hloop : ∃ e, token_loop BUFF_SIZE p save conf = .error e :=
      token_loop_unterminated hs' conf
    obtain ⟨e, he⟩ := hloop
    rw [htok]
    simp only [he]
    exact ⟨e, rfl⟩

/-! ## Any content of the flash -/

/-- The value of a token ends inside the buffer: it has a second character, or there is
a NUL behind it. A token of one character has its value in the tokens behind it. -/
def Ended (p : List UInt8) : Prop := 2 ≤ (token 60 p).length ∨ 0 ∈ behind 60 p

/-- The text that a token stands for. -/
def value (p : List UInt8) : List UInt8 :=
  if 2 ≤ (token 60 p).length then (token 60 p).drop 2 else cstr (behind 60 p)

/-- The size of the field for a text. -/
def textSize (c : UInt8) : Option Nat :=
  if c = SSID_TAG_CHAR then some SSID_BUFF_SIZE
  else if c = WPA2_PSWD_TAG_CHAR then some WPA2_PSWD_BUFF_SIZE
  else if c = SATID_TAG_CHAR then some BEAM_NAME_MAX_SIZE
  else none

/-- The token can be read: a text ends and, counted in 8 bits, is not longer than its
field; a number ends; and the six bytes of an address are inside the buffer. -/
structure Fits (p : List UInt8) : Prop where
  text : ∀ c ∈ p.head?, ∀ size ∈ textSize c, Ended p ∧ (value p).length % 256 ≤ size
  number : p.head? = some SERVICE_TAG_CHAR → Ended p
  raw : p.head? = some BLE_ADDR_TAG_CHAR → 8 ≤ (token 60 p).length + 1 + (behind 60 p).length

/-- The token has a tag of its own. -/
def Recognised (p : List UInt8) : Prop :=
  p.head? ∈ [SSID_TAG_CHAR, WPA2_PSWD_TAG_CHAR, BLE_ADDR_TAG_CHAR, SERVICE_TAG_CHAR,
    SATID_TAG_CHAR].map some

/-- The parser comes to its end without a fault, and what has no tag changes nothing. -/
def Safe (flash : List UInt8) : Prop :=
  ∀ conf, (∃ r, _read_config (some flash) conf = .ok r) ∧
    ((∀ p ∈ starts 60 true (delivered flash), ¬ Recognised p) →
      _read_config (some flash) conf = .ok (0, conf))

/-- The content has an end and a token before it, and every token can be read. -/
structure Sound (buff : List UInt8) : Prop where
  ends : 0 ∈ buff
  nonempty : ∃ c ∈ cstr buff, c ≠ 60
  fits : ∀ p ∈ starts 60 true buff, Fits p

section tokens

variable {p : List UInt8}

theorem cut_drop (hp : token 60 p ≠ []) :
    (cut 60 p).drop 2 = if 2 ≤ (token 60 p).length then (token 60 p).drop 2 ++ 0 :: behind 60 p
      else behind 60 p := by
  unfold cut
  split_ifs with hlen
  · exact List.drop_append_of_le_length hlen
  · have hone : (token 60 p).length = 1 := by
      have := List.length_pos_iff.mpr hp
      omega
    rw [List.drop_append, hone, List.drop_eq_nil_of_le (by omega)]
    rfl

theorem zero_not_mem_token (p : List UInt8) : 0 ∉ token 60 p := by
  intro h
  have := List.mem_takeWhile_imp h
  simp [InToken] at this

theorem ended_iff (hp : token 60 p ≠ []) : 0 ∈ (cut 60 p).drop 2 ↔ Ended p := by
  rw [cut_drop hp]
  unfold Ended
  split_ifs with hlen
  · simp [hlen]
  · simp [hlen]

theorem cstr_cut (hp : token 60 p ≠ []) : cstr ((cut 60 p).drop 2) = value p := by
  rw [cut_drop hp]
  unfold value
  split_ifs with hlen
  · exact cstr_append (fun h => zero_not_mem_token p (List.mem_of_mem_drop h)) _
  · rfl

theorem head_cut (hp : token 60 p ≠ []) :
    ∃ c, p.head? = some c ∧ (cut 60 p).head? = some c := by
  cases p with
  | nil => exact absurd rfl hp
  | cons c s =>
    refine ⟨c, rfl, ?_⟩
    unfold token at hp
    rw [List.takeWhile_cons] at hp
    unfold cut token
    rw [List.takeWhile_cons]
    split_ifs at hp ⊢ with hc
    · rfl
    · exact absurd rfl hp

theorem readText_ok_iff (hp : token 60 p ≠ []) (size : Nat) :
    (∃ r, readText size (cut 60 p) = .ok r) ↔ Ended p ∧ (value p).length % 256 ≤ size := by
  unfold readText length8
  rw [← ended_iff hp, ← cstr_cut hp]
  by_cases hended : 0 ∈ (cut 60 p).drop 2
  · simp only [hended, if_true, true_and, UInt8.toNat_ofNat']
    split_ifs with hsize
    · exact ⟨fun _ => hsize, fun _ => ⟨_, rfl⟩⟩
    · simp [hsize]
  · simp [hended]

theorem readNumber_ok_iff (hp : token 60 p ≠ []) :
    (∃ r, readNumber (cut 60 p) = .ok r) ↔ Ended p := by
  unfold readNumber
  rw [← ended_iff hp]
  by_cases hended : 0 ∈ (cut 60 p).drop 2 <;> simp [hended]

theorem readRaw_ok_iff (p : List UInt8) :
    (∃ r, readRaw BLE_ADDR_SIZE (cut 60 p) = .ok r) ↔
      8 ≤ (token 60 p).length + 1 + (behind 60 p).length := by
  have hlen : (cut 60 p).length = (token 60 p).length + 1 + (behind 60 p).length := by
    simp only [cut, List.length_append, List.length_cons]
    omega
  have hroom : BLE_ADDR_SIZE ≤ ((cut 60 p).drop 2).length ↔ 8 ≤ (cut 60 p).length := by
    rw [List.length_drop]
    simp only [BLE_ADDR_SIZE]
    omega
  unfold readRaw
  simp only [← hlen, hroom]
  by_cases hlong : 8 ≤ (cut 60 p).length <;> simp [hlong]

theorem map_ok_iff {α β : Type} {f : α → β} {x : Except ReadFault α} :
    (∃ r, x.map f = .ok r) ↔ ∃ a, x = .ok a := by
  cases x <;> simp [Except.map]

/-- Whether a token can be read does not depend on the configuration. -/
theorem readToken_ok_iff (hp : token 60 p ≠ []) (conf : ConfData) :
    (∃ conf', readToken (cut 60 p) conf = .ok conf') ↔ Fits p := by
  obtain ⟨c, hhead, hcut⟩ := head_cut hp
  have hfits : Fits p ↔ (∀ size ∈ textSize c, Ended p ∧ (value p).length % 256 ≤ size) ∧
      (c = SERVICE_TAG_CHAR → Ended p) ∧
      (c = BLE_ADDR_TAG_CHAR → 8 ≤ (token 60 p).length + 1 + (behind 60 p).length) := by
    refine ⟨fun h => ⟨h.text c hhead, ?_, ?_⟩, fun ⟨h1, h2, h3⟩ => ⟨?_, ?_, ?_⟩⟩
    · rintro rfl
      exact h.number hhead
    · rintro rfl
      exact h.raw hhead
    · intro c' hc'
      obtain rfl : c = c' := Option.some.inj (hhead.symm.trans hc')
      exact h1
    · intro hc
      exact h2 (Option.some.inj (hhead.symm.trans hc))
    · intro hc
      exact h3 (Option.some.inj (hhead.symm.trans hc))
  rw [hfits]
  unfold readToken textSize
  simp only [hcut]
  by_cases h1 : c = SSID_TAG_CHAR
  · rw [if_pos h1, if_pos h1, map_ok_iff, readText_ok_iff hp]
    simp [h1]
  rw [if_neg h1, if_neg h1]
  by_cases h2 : c = WPA2_PSWD_TAG_CHAR
  · rw [if_pos h2, if_pos h2, map_ok_iff, readText_ok_iff hp]
    simp [h2]
  rw [if_neg h2, if_neg h2]
  by_cases h3 : c = BLE_ADDR_TAG_CHAR
  · rw [if_pos h3, map_ok_iff, readRaw_ok_iff]
    simp [h3]
  rw [if_neg h3]
  by_cases h4 : c = SERVICE_TAG_CHAR
  · rw [if_pos h4, map_ok_iff, readNumber_ok_iff hp]
    simp [h4]
  rw [if_neg h4]
  by_cases h5 : c = SATID_TAG_CHAR
  · rw [if_pos h5, if_pos h5, map_ok_iff, readText_ok_iff hp]
    simp [h5]
  · rw [if_neg h5, if_neg h5]
    simp only [h3, h4, false_imp_iff, and_true, Option.mem_def, reduceCtorEq, implies_true,
      Except.ok.injEq, exists_eq']

/-- A token without a tag of its own changes nothing. -/
theorem readToken_unrecognised (hp : token 60 p ≠ []) (h : ¬ Recognised p) (conf : ConfData) :
    readToken (cut 60 p) conf = .ok conf := by
  obtain ⟨c, hhead, hcut⟩ := head_cut hp
  unfold Recognised at h
  rw [hhead] at h
  simp only [List.map_cons, List.map_nil, List.mem_cons, Option.some.injEq, List.not_mem_nil,
    or_false, not_or] at h
  obtain ⟨h1, h2, h3, h4, h5⟩ := h
  unfold readToken
  simp only [hcut, h1, h2, h3, h4, h5, if_false]

end tokens

theorem readAll_ok_iff {ps : List (List UInt8)} (hps : ∀ p ∈ ps, token 60 p ≠ [])
    (conf : ConfData) : (∃ conf', readAll ps conf = .ok conf') ↔ ∀ p ∈ ps, Fits p := by
  induction ps generalizing conf with
  | nil => simp [readAll]
  | cons p ps ih =>
    obtain ⟨hp, hps'⟩ := List.forall_mem_cons.mp hps
    have hfirst := readToken_ok_iff hp conf
    rw [List.forall_mem_cons, ← hfirst, readAll]
    rcases readToken (cut 60 p) conf with e | conf'
    · simp
    · simp only [ih hps']
      simp

theorem readAll_unrecognised {ps : List (List UInt8)} (hps : ∀ p ∈ ps, token 60 p ≠ [])
    (h : ∀ p ∈ ps, ¬ Recognised p) (conf : ConfData) : readAll ps conf = .ok conf := by
  induction ps with
  | nil => rfl
  | cons p ps ih =>
    obtain ⟨hp, hps'⟩ := List.forall_mem_cons.mp hps
    obtain ⟨h', hs⟩ := List.forall_mem_cons.mp h
    rw [readAll, readToken_unrecognised hp h']
    exact ih hps' hs

/-- On any flash, the parser is safe exactly when the content is sound. It checks
nothing of this itself. -/
theorem safe_iff_sound (flash : List UInt8) : Safe flash ↔ Sound (delivered flash) := by
  have htokens : ∀ p ∈ starts 60 true (delivered flash), token 60 p ≠ [] :=
    fun p hp => token_ne_nil hp
  by_cases hs : 0 ∈ delivered flash
  · have hne := starts_ne_nil_iff (d := 60) (by decide) hs
    have hread := read_config_eq hs
    refine ⟨?_, ?_⟩
    · intro hsafe
      obtain ⟨⟨r, hr⟩, -⟩ := hsafe .zero
      rw [hread] at hr
      split at hr
      · cases hr
      · rename_i p ps hstarts
        refine ⟨hs, hne.mp (by simp [hstarts]), ?_⟩
        rw [hstarts] at htokens ⊢
        exact (readAll_ok_iff htokens _).mp (map_ok_iff.mp ⟨r, hr⟩)
    · intro hsound conf
      rw [hread]
      rcases hstarts : starts 60 true (delivered flash) with _ | ⟨p, ps⟩
      · exact absurd hstarts (hne.mpr hsound.nonempty)
      · have hfits := hsound.fits
        rw [hstarts] at htokens hfits
        refine ⟨map_ok_iff.mpr ((readAll_ok_iff htokens conf).mpr hfits), ?_⟩
        intro h
        simp only [readAll_unrecognised htokens h conf]
        rfl
  · refine ⟨?_, fun hsound => absurd hsound.ends hs⟩
    intro hsafe
    obtain ⟨⟨r, hr⟩, -⟩ := hsafe .zero
    obtain ⟨e, he⟩ := read_config_unterminated hs .zero
    rw [he] at hr
    cases hr

/-- An empty flash has no token, and the parser reads through NULL. -/
theorem an_empty_flash_is_not_safe : ¬ ∀ flash, Safe flash := by
  intro hall
  obtain ⟨⟨r, hr⟩, -⟩ := hall [] .zero
  have hzeroes : delivered [] = 0 :: List.replicate 1023 0 := rfl
  have hnone : starts 60 true (delivered []) = [] := by rw [hzeroes, starts, if_pos rfl]
  rw [read_config_eq (by rw [hzeroes]; exact List.mem_cons_self), hnone] at hr
  cases hr

end conf_read

end udp_service
