-- The tagged format of the configuration in the flash, and what the parser makes of a
-- configuration that was written in it. The address is written as raw bytes, so one of
-- them may look like a delimiter or like the end of the string.
import UdpService.ConfRead

open blocks cstrings

namespace udp_service

namespace conf_format

open conf_read

/-! ## The format -/

/-- The fields that can be written. -/
inductive Tag
  | ssid
  | wpa2_pswd
  | satid
  | ble
  | service
deriving DecidableEq

def Tag.char : Tag → UInt8
  | .ssid => SSID_TAG_CHAR
  | .wpa2_pswd => WPA2_PSWD_TAG_CHAR
  | .satid => SATID_TAG_CHAR
  | .ble => BLE_ADDR_TAG_CHAR
  | .service => SERVICE_TAG_CHAR

def Tag.all : List Tag := [.ssid, .wpa2_pswd, .satid, .ble, .service]

/-- The values of a configuration: texts that their fields have room for and that no
`<` and no NUL stand in, any address and any service. -/
structure Values where
  ssid : List UInt8
  wpa2_pswd : List UInt8
  beam : List UInt8
  ble_addr : List UInt8
  service_id : UInt8
  ssid_le : ssid.length ≤ 32
  wpa2_pswd_le : wpa2_pswd.length ≤ 63
  beam_le : beam.length ≤ 36
  ble_addr_length : ble_addr.length = BLE_ADDR_SIZE
  clean : ∀ c ∈ ssid ++ wpa2_pswd ++ beam, InToken 60 c

/-- A number in decimal. -/
def digits (n : UInt8) : List UInt8 := (Nat.toDigits 10 n.toNat).map fun c => UInt8.ofNat c.toNat

/-- What stands between the tags of a field. -/
def Values.bytes (x : Values) : Tag → List UInt8
  | .ssid => x.ssid
  | .wpa2_pswd => x.wpa2_pswd
  | .satid => x.beam
  | .ble => x.ble_addr
  | .service => digits x.service_id

/-- `<t>`, the value and `</t>`. -/
def field (x : Values) (t : Tag) : List UInt8 :=
  60 :: t.char :: 62 :: x.bytes t ++ [60, 47, t.char, 62]

/-- The fields in some order. -/
def written (x : Values) (order : List Tag) : List UInt8 := order.flatMap (field x)

/-- The configuration has the value of the field. -/
def Holds (x : Values) (conf : ConfData) : Tag → Prop
  | .ssid => conf.ssid_len.toNat = x.ssid.length ∧
      (List.ofFn conf.ssid).take x.ssid.length = x.ssid
  | .wpa2_pswd => conf.wpa2_pswd_len.toNat = x.wpa2_pswd.length ∧
      (List.ofFn conf.wpa2_pswd).take x.wpa2_pswd.length = x.wpa2_pswd
  | .satid => conf.beam_len.toNat = x.beam.length ∧
      (List.ofFn conf.selected_beam).take x.beam.length = x.beam
  | .ble => List.ofFn conf.ble_addr = x.ble_addr
  | .service => conf.service_id = x.service_id

/-- The parser gets back what was written, whatever stands behind it in the flash and
whatever the configuration was. -/
def Inverts (x : Values) (order : List Tag) : Prop :=
  ∀ conf junk, ∃ conf', _read_config (some (written x order ++ 0 :: junk)) conf = .ok (0, conf') ∧
    ∀ t, Holds x conf' t

/-! ## One field -/

theorem digits_isdigit (n : UInt8) : ∀ c ∈ digits n, isdigit c = true := by
  intro c hc
  obtain ⟨d, hd, rfl⟩ := List.mem_map.mp hc
  have hdigit := Nat.isDigit_of_mem_toDigits (by decide) (by decide) hd
  obtain ⟨hlow, hhigh⟩ : 48 ≤ d.toNat ∧ d.toNat ≤ 57 := Char.isDigit_iff_toNat.mp hdigit
  simp only [isdigit, decide_eq_true_eq, UInt8.le_iff_toNat_le, UInt8.toNat_ofNat',
    UInt8.reduceToNat]
  omega

theorem digits_length_le (n : UInt8) : (digits n).length ≤ 3 := by
  have hlt := n.toNat_lt
  rw [digits, List.length_map, Nat.length_toDigits_le_iff (by decide) (by decide)]
  omega

theorem atoi_digits (n : UInt8) : UInt8.ofBitVec ((atoi (digits n)).setWidth 8) = n := by
  have hall : ∀ n : Fin 256, UInt8.ofBitVec ((atoi (digits (UInt8.ofFin n))).setWidth 8) =
      UInt8.ofFin n := by decide +kernel
  have h := hall n.toFin
  rwa [UInt8.ofFin_toFin] at h

/-- No byte of the value ends a token. -/
def Clean (x : Values) (t : Tag) : Prop := ∀ c ∈ x.bytes t, InToken 60 c

theorem clean_of_ne (x : Values) {t : Tag} (ht : t ≠ .ble) : Clean x t := by
  have hclean := x.clean
  simp only [List.mem_append, or_imp, forall_and] at hclean
  obtain ⟨⟨hssid, hpswd⟩, hbeam⟩ := hclean
  cases t with
  | ssid => exact hssid
  | wpa2_pswd => exact hpswd
  | satid => exact hbeam
  | ble => exact absurd rfl ht
  | service => exact fun c hc => inToken_of_isdigit (by decide) (digits_isdigit _ c hc)

theorem clean_of_not_mem (x : Values) {order : List Tag} (h : .ble ∉ order) :
    ∀ t ∈ order, Clean x t := by
  intro t ht
  apply clean_of_ne
  rintro rfl
  exact h ht

theorem bytes_length_le (x : Values) (t : Tag) : (x.bytes t).length ≤ 63 := by
  cases t with
  | ssid => exact x.ssid_le.trans (by decide)
  | wpa2_pswd => exact x.wpa2_pswd_le
  | satid => exact x.beam_le.trans (by decide)
  | ble => exact x.ble_addr_length.le.trans (by decide)
  | service => exact (digits_length_le _).trans (by decide)

/-- The configuration once a field is read. -/
def stored (x : Values) (conf : ConfData) : Tag → ConfData
  | .ssid => { conf with
      ssid_len := UInt8.ofNat x.ssid.length, ssid := conf.ssid.write 0 x.ssid }
  | .wpa2_pswd => { conf with
      wpa2_pswd_len := UInt8.ofNat x.wpa2_pswd.length
      wpa2_pswd := conf.wpa2_pswd.write 0 x.wpa2_pswd }
  | .satid => { conf with
      beam_len := UInt8.ofNat x.beam.length, selected_beam := conf.selected_beam.write 0 x.beam }
  | .ble => { conf with ble_addr := conf.ble_addr.write 0 x.ble_addr }
  | .service => { conf with service_id := x.service_id }

theorem holds_stored (x : Values) (conf : ConfData) (t : Tag) : Holds x (stored x conf t) t := by
  have hlen : ∀ w : List UInt8, w.length ≤ 63 → (UInt8.ofNat w.length).toNat = w.length := by
    intro w hw
    rw [UInt8.toNat_ofNat']
    omega
  cases t with
  | ssid => exact ⟨hlen _ (bytes_length_le x .ssid),
      Buffer.take_write _ (x.ssid_le.trans (by decide))⟩
  | wpa2_pswd => exact ⟨hlen _ (bytes_length_le x .wpa2_pswd),
      Buffer.take_write _ (x.wpa2_pswd_le.trans (by decide))⟩
  | satid => exact ⟨hlen _ (bytes_length_le x .satid),
      Buffer.take_write _ (x.beam_le.trans (by decide))⟩
  | ble =>
    have hwrite := Buffer.take_write conf.ble_addr x.ble_addr_length.le
    rwa [List.take_of_length_le (by simp [x.ble_addr_length])] at hwrite
  | service => exact rfl

/-- The other fields stay as they were. -/
theorem holds_stored_ne (x : Values) (conf : ConfData) {t t' : Tag} (h : t' ≠ t) :
    Holds x (stored x conf t) t' ↔ Holds x conf t' := by
  cases t <;> cases t' <;> first | exact absurd rfl h | exact Iff.rfl

theorem readText_written {size : Nat} {w : List UInt8} (hw : 0 ∉ w) (hsize : w.length ≤ size)
    (hbyte : w.length < 256) (c : UInt8) (s : List UInt8) :
    readText size (c :: 62 :: w ++ 0 :: s) = .ok (UInt8.ofNat w.length, w) := by
  have hlen : (UInt8.ofNat w.length).toNat = w.length := by
    rw [UInt8.toNat_ofNat']
    omega
  have hdrop : (c :: 62 :: w ++ 0 :: s).drop 2 = w ++ 0 :: s := rfl
  have hzero : 0 ∈ w ++ 0 :: s := List.mem_append_right _ List.mem_cons_self
  unfold readText length8
  rw [hdrop]
  simp only [hzero, if_true, cstr_append hw, hlen, hsize, List.take_left]

/-- The address is read as it was written, whatever bytes it has. -/
theorem readToken_ble (x : Values) (s : List UInt8) (conf : ConfData) :
    readToken (98 :: 62 :: x.ble_addr ++ s) conf = .ok (stored x conf .ble) := by
  have hdrop : (98 :: 62 :: x.ble_addr ++ s).drop 2 = x.ble_addr ++ s := rfl
  have hroom : BLE_ADDR_SIZE ≤ (x.ble_addr ++ s).length := by
    rw [List.length_append, x.ble_addr_length]
    exact Nat.le_add_right _ _
  have hread : readRaw BLE_ADDR_SIZE (98 :: 62 :: x.ble_addr ++ s) = .ok x.ble_addr := by
    unfold readRaw
    rw [hdrop]
    simp only [hroom, if_true]
    rw [List.take_append_of_le_length x.ble_addr_length.ge,
      List.take_of_length_le x.ble_addr_length.le]
  unfold readToken
  rw [hread]
  rfl

theorem readNumber_digits (n c : UInt8) (s : List UInt8) :
    readNumber (c :: 62 :: digits n ++ 0 :: s) = .ok n := by
  have hdrop : (c :: 62 :: digits n ++ 0 :: s).drop 2 = digits n ++ 0 :: s := rfl
  have hended : 0 ∈ digits n ++ 0 :: s := List.mem_append_right _ List.mem_cons_self
  have hzero : 0 ∉ digits n := fun h => absurd (digits_isdigit n 0 h) (by decide)
  have hcongr : atoi (digits n ++ 0 :: s) = atoi (digits n) := by
    apply atoi_congr
    rw [cstr_append hzero, cstr_eq_self hzero]
  unfold readNumber
  rw [hdrop]
  simp only [hended, if_true]
  rw [hcongr, atoi_digits]

/-- The token of a field is read into it. -/
theorem readToken_field {x : Values} {t : Tag} (h : Clean x t) (s : List UInt8) (conf : ConfData) :
    readToken (t.char :: 62 :: x.bytes t ++ 0 :: s) conf = .ok (stored x conf t) := by
  have hzero : 0 ∉ x.bytes t := fun h0 => (h 0 h0).2 rfl
  have hbyte : (x.bytes t).length < 256 := (bytes_length_le x t).trans_lt (by decide)
  cases t with
  | ssid =>
    have hread := readText_written hzero (x.ssid_le.trans (by decide : 32 ≤ SSID_BUFF_SIZE))
      hbyte Tag.ssid.char s
    unfold readToken
    rw [hread]
    rfl
  | wpa2_pswd =>
    have hread := readText_written hzero
      (x.wpa2_pswd_le.trans (by decide : 63 ≤ WPA2_PSWD_BUFF_SIZE)) hbyte Tag.wpa2_pswd.char s
    unfold readToken
    rw [hread]
    rfl
  | satid =>
    have hread := readText_written hzero (x.beam_le.trans (by decide : 36 ≤ BEAM_NAME_MAX_SIZE))
      hbyte Tag.satid.char s
    unfold readToken
    rw [hread]
    rfl
  | ble => exact readToken_ble x (0 :: s) conf
  | service =>
    have hread := readNumber_digits x.service_id Tag.service.char s
    unfold readToken
    rw [show x.bytes .service = digits x.service_id from rfl, hread]
    rfl

/-! ## All fields -/

theorem inToken_char (t : Tag) : InToken 60 t.char := by
  cases t <;> decide

theorem not_inToken_open : ¬ InToken 60 60 := fun h => h.1 rfl

/-- The string starts with a delimiter or is at its end. -/
def Stops (s : List UInt8) : Prop := ∃ e rest, s = e :: rest ∧ ¬ InToken 60 e

theorem stops_zero (rest : List UInt8) : Stops (0 :: rest) :=
  ⟨0, rest, rfl, fun h => h.2 rfl⟩

theorem stops_written (x : Values) (order : List Tag) (rest : List UInt8) :
    Stops (written x order ++ 0 :: rest) := by
  cases order with
  | nil => exact stops_zero rest
  | cons t order => exact ⟨60, _, rfl, not_inToken_open⟩

theorem starts_of_stops {s : List UInt8} (hs : Stops s) (fresh : Bool) :
    starts 60 fresh s = starts 60 true s := by
  obtain ⟨e, rest, rfl, he⟩ := hs
  rw [starts_stop he, starts_stop he]

theorem starts_open (fresh : Bool) (s : List UInt8) :
    starts 60 fresh (60 :: s) = starts 60 true s := by
  rw [starts_stop not_inToken_open]
  rfl

theorem cut_of_stops {tok s : List UInt8} (htok : ∀ c ∈ tok, InToken 60 c) (hs : Stops s) :
    ∃ rest, cut 60 (tok ++ s) = tok ++ 0 :: rest := by
  obtain ⟨e, rest, rfl, he⟩ := hs
  exact ⟨rest, cut_append htok he rest⟩

theorem written_cons (x : Values) (t : Tag) (order : List Tag) (s : List UInt8) :
    written x (t :: order) ++ s = 60 :: (t.char :: 62 :: x.bytes t) ++
      60 :: ([47, t.char, 62] ++ (written x order ++ s)) := by
  unfold written
  rw [List.flatMap_cons]
  simp [field]

theorem inToken_closing (t : Tag) : ∀ c ∈ [47, t.char, 62], InToken 60 c := by
  have hslash : InToken 60 47 := by decide
  have hclose : InToken 60 62 := by decide
  simp [hslash, hclose, inToken_char t]

theorem inToken_opening (t : Tag) {w : List UInt8} (hw : ∀ c ∈ w, InToken 60 c) :
    ∀ c ∈ t.char :: 62 :: w, InToken 60 c := by
  have hclose : InToken 60 62 := by decide
  exact List.forall_mem_cons.mpr ⟨inToken_char t, List.forall_mem_cons.mpr ⟨hclose, hw⟩⟩

/-- The token that closes a field has no tag of its own. -/
theorem readToken_closing {s : List UInt8} (hs : Stops s) (t : Tag) (conf : ConfData) :
    readToken (cut 60 ([47, t.char, 62] ++ s)) conf = .ok conf := by
  obtain ⟨rest, hcut⟩ := cut_of_stops (inToken_closing t) hs
  rw [hcut]
  rfl

/-- A field with a clean value is two tokens. -/
theorem starts_written_cons {x : Values} {t : Tag} (h : Clean x t) (order : List Tag)
    {s : List UInt8} (hs : Stops (written x order ++ s)) :
    starts 60 true (written x (t :: order) ++ s) =
      (t.char :: 62 :: x.bytes t ++ 60 :: ([47, t.char, 62] ++ (written x order ++ s))) ::
        ([47, t.char, 62] ++ (written x order ++ s)) :: starts 60 true (written x order ++ s) := by
  rw [written_cons, List.cons_append, starts_open,
    starts_token (inToken_opening t h) (List.cons_ne_nil _ _), starts_open,
    starts_token (inToken_closing t) (List.cons_ne_nil _ _), starts_of_stops hs]

/-- The configuration after the fields are read in their order. -/
def storedAll (x : Values) (conf : ConfData) (order : List Tag) : ConfData :=
  order.foldl (stored x) conf

/-- Fields with clean values are read, and then what stands behind them. -/
theorem readAll_written {x : Values} {order : List Tag} (hclean : ∀ t ∈ order, Clean x t)
    {s : List UInt8} (hs : ∀ order, Stops (written x order ++ s)) (conf : ConfData) :
    readAll (starts 60 true (written x order ++ s)) conf =
      readAll (starts 60 true s) (storedAll x conf order) := by
  induction order generalizing conf with
  | nil => rfl
  | cons t order ih =>
    obtain ⟨ht, hclean'⟩ := List.forall_mem_cons.mp hclean
    rw [starts_written_cons ht order (hs order), readAll,
      cut_append (inToken_opening t ht) not_inToken_open, readToken_field ht]
    simp only [readAll, readToken_closing (hs order)]
    exact ih hclean' _

/-- Where an address that has a NUL, but no `<` before it, stands last, it is read and
nothing behind it. -/
theorem readAll_ble {x : Values} (hopen : 60 ∉ cstr x.ble_addr) (hzero : 0 ∈ x.ble_addr)
    (order : List Tag) (s : List UInt8) (conf : ConfData) :
    readAll (starts 60 true (written x (.ble :: order) ++ s)) conf = .ok (stored x conf .ble) := by
  obtain ⟨a, b, haddr, hanot⟩ := List.eq_append_cons_of_mem hzero
  rw [haddr, cstr_append hanot] at hopen
  have htok : ∀ c ∈ 98 :: 62 :: a, InToken 60 c := by
    apply inToken_opening .ble
    intro c hc
    exact ⟨fun h => hopen (h ▸ hc), fun h => hanot (h ▸ hc)⟩
  obtain ⟨r, hr⟩ : ∃ r, written x (.ble :: order) ++ s = 60 :: (98 :: 62 :: x.ble_addr ++ r) := by
    rw [written_cons]
    exact ⟨_, rfl⟩
  have hsplit : 98 :: 62 :: x.ble_addr ++ r = 98 :: 62 :: a ++ 0 :: (b ++ r) := by
    rw [haddr]
    simp
  have hend : ¬ InToken 60 (0 : UInt8) := fun h => h.2 rfl
  have hread := readToken_ble x r conf
  rw [hsplit] at hread
  rw [hr, starts_open, hsplit, starts_token htok (List.cons_ne_nil _ _), starts, if_pos rfl,
    readAll, cut_append htok hend, hread]
  rfl

/-- The fields that were read have their values, and the others still have them if they
had. -/
theorem holds_storedAll (x : Values) (conf : ConfData) (order : List Tag) (t : Tag) :
    Holds x (storedAll x conf order) t ↔ t ∈ order ∨ Holds x conf t := by
  induction order generalizing conf with
  | nil => simp [storedAll]
  | cons t' order ih =>
    have hstored : Holds x (stored x conf t') t ↔ t = t' ∨ Holds x conf t := by
      by_cases h : t = t'
      · subst h
        simp [holds_stored]
      · rw [holds_stored_ne x conf h]
        simp [h]
    calc Holds x (storedAll x conf (t' :: order)) t
        ↔ t ∈ order ∨ Holds x (stored x conf t') t := ih (stored x conf t')
      _ ↔ t ∈ order ∨ t = t' ∨ Holds x conf t := by rw [hstored]
      _ ↔ t ∈ t' :: order ∨ Holds x conf t := by rw [List.mem_cons]; tauto

/-- No field of a configuration has its value by itself. -/
theorem exists_not_holds (x : Values) (t : Tag) : ∃ conf, ¬ Holds x conf t := by
  have hlong : ∀ n ≤ 63, (255 : UInt8).toNat ≠ n := by
    intro n hn
    exact Nat.ne_of_gt (Nat.lt_of_le_of_lt hn (by decide))
  have hshort := bytes_length_le x t
  cases t with
  | ssid => exact ⟨{ ConfData.zero with ssid_len := 255 }, fun h => hlong _ hshort h.1⟩
  | wpa2_pswd => exact ⟨{ ConfData.zero with wpa2_pswd_len := 255 }, fun h => hlong _ hshort h.1⟩
  | satid => exact ⟨{ ConfData.zero with beam_len := 255 }, fun h => hlong _ hshort h.1⟩
  | ble =>
    refine ⟨{ ConfData.zero with ble_addr := fun _ => x.ble_addr.headD 0 + 1 }, fun h => ?_⟩
    have haddr : List.ofFn (fun _ : Fin BLE_ADDR_SIZE => x.ble_addr.headD 0 + 1) = x.ble_addr := h
    have hhead := congrArg (fun l => l.headD 0) haddr
    simp [List.ofFn_succ] at hhead
  | service =>
    refine ⟨{ ConfData.zero with service_id := x.service_id + 1 }, fun h => ?_⟩
    have hservice : x.service_id + 1 = x.service_id := h
    simp at hservice

/-! ## The whole buffer -/

theorem written_length_le (x : Values) (order : List Tag) :
    (written x order).length ≤ 70 * order.length := by
  induction order with
  | nil => exact Nat.le_refl 0
  | cons t order ih =>
    have hbytes := bytes_length_le x t
    have hcons := congrArg List.length (written_cons x t order [])
    simp only [List.append_nil, List.length_append, List.length_cons, List.length_nil] at hcons ⊢
    omega

/-- What was written is delivered, with its end behind it. -/
theorem delivered_written {w : List UInt8} (hw : w.length < BUFF_SIZE) (junk : List UInt8) :
    ∃ rest, delivered (w ++ 0 :: junk) = w ++ 0 :: rest := by
  obtain ⟨n, hn⟩ := Nat.exists_eq_add_of_lt hw
  have htake : (w ++ 0 :: junk).take BUFF_SIZE = w ++ 0 :: junk.take n := by
    rw [List.take_append, List.take_of_length_le hw.le]
    rw [show BUFF_SIZE - w.length = n + 1 from by omega, List.take_succ_cons]
  unfold delivered
  rw [htake]
  exact ⟨_, by rw [List.append_assoc]; rfl⟩

/-- The parser on what was written: the fields one after the other. -/
theorem read_written (x : Values) {order : List Tag} (hne : order ≠ [])
    (hlen : (written x order).length < BUFF_SIZE) (junk : List UInt8) :
    ∃ rest, ∀ conf, _read_config (some (written x order ++ 0 :: junk)) conf =
      (readAll (starts 60 true (written x order ++ 0 :: rest)) conf).map fun conf => (0, conf) := by
  obtain ⟨rest, hrest⟩ := delivered_written hlen junk
  refine ⟨rest, ?_⟩
  intro conf
  rw [read_config_eq (by rw [hrest]; exact List.mem_append_right _ List.mem_cons_self), hrest]
  obtain ⟨t, order', rfl⟩ := List.exists_cons_of_ne_nil hne
  obtain ⟨r, hr⟩ : ∃ r, written x (t :: order') ++ 0 :: rest = 60 :: ([t.char] ++ r) := by
    rw [written_cons]
    exact ⟨_, rfl⟩
  have htag : ∀ c ∈ [t.char], InToken 60 c := by simp [inToken_char t]
  rw [hr, starts_open, starts_token htag (List.cons_ne_nil _ _)]

/-! ## An address with a `<` -/

/-- A token of clean fields starts with a tag or with the `/` that closes a field. -/
theorem head_of_written {x : Values} {order : List Tag} (hclean : ∀ t ∈ order, Clean x t)
    {s : List UInt8} (hs : ∀ order, Stops (written x order ++ s)) {p : List UInt8}
    (hp : p ∈ starts 60 true (written x order ++ s)) :
    (∃ t ∈ order, p.head? = some t.char) ∨ p.head? = some 47 ∨ p ∈ starts 60 true s := by
  induction order with
  | nil => exact Or.inr (Or.inr hp)
  | cons t order ih =>
    obtain ⟨ht, hclean'⟩ := List.forall_mem_cons.mp hclean
    rw [starts_written_cons ht order (hs order)] at hp
    rcases List.mem_cons.mp hp with rfl | hp
    · exact Or.inl ⟨t, List.mem_cons_self, rfl⟩
    · rcases List.mem_cons.mp hp with rfl | hp
      · exact Or.inr (Or.inl rfl)
      · rcases ih hclean' hp with ⟨t', ht', hhead⟩ | hhead
        · exact Or.inl ⟨t', List.mem_cons_of_mem _ ht', hhead⟩
        · exact Or.inr hhead

theorem of_map_ok {α β : Type} {f : α → β} {x : Except ReadFault α} {r : β}
    (h : x.map f = .ok r) : ∃ a, x = .ok a ∧ f a = r := by
  cases x with
  | error e => cases h
  | ok a => exact ⟨a, rfl, Except.ok.inj h⟩

/-- A token changes the address only where it has its tag. -/
theorem ble_addr_readToken {p : List UInt8} {conf conf' : ConfData}
    (h : readToken p conf = .ok conf') : conf'.ble_addr = conf.ble_addr ∨
      p.head? = some Tag.ble.char ∧ List.ofFn conf'.ble_addr = (p.drop 2).take BLE_ADDR_SIZE := by
  unfold readToken at h
  rcases hhead : p.head? with _ | c
  · simp [hhead] at h
  simp only [hhead] at h
  split_ifs at h with h1 h2 h3 h4 h5
  · obtain ⟨r, -, rfl⟩ := of_map_ok h
    exact Or.inl rfl
  · obtain ⟨r, -, rfl⟩ := of_map_ok h
    exact Or.inl rfl
  · obtain ⟨r, hread, rfl⟩ := of_map_ok h
    simp only [readRaw] at hread
    split_ifs at hread with hroom
    obtain rfl := Except.ok.inj hread
    have hlen : ((p.drop 2).take BLE_ADDR_SIZE).length = BLE_ADDR_SIZE := by
      rw [List.length_take]
      omega
    have hwrite := Buffer.take_write conf.ble_addr hlen.le
    rw [List.take_of_length_le (by simp [hlen])] at hwrite
    exact Or.inr ⟨congrArg some h3, hwrite⟩
  · obtain ⟨r, -, rfl⟩ := of_map_ok h
    exact Or.inl rfl
  · obtain ⟨r, -, rfl⟩ := of_map_ok h
    exact Or.inl rfl
  · exact Or.inl (Except.ok.inj h ▸ rfl)

theorem ble_addr_readAll {ps : List (List UInt8)} {conf conf' : ConfData}
    (h : readAll ps conf = .ok conf') : conf'.ble_addr = conf.ble_addr ∨
      ∃ p ∈ ps, (cut 60 p).head? = some Tag.ble.char ∧
        List.ofFn conf'.ble_addr = ((cut 60 p).drop 2).take BLE_ADDR_SIZE := by
  induction ps generalizing conf with
  | nil => exact Or.inl (Except.ok.inj h ▸ rfl)
  | cons p ps ih =>
    rw [readAll] at h
    rcases hread : readToken (cut 60 p) conf with e | conf1
    · simp [hread] at h
    · simp only [hread] at h
      rcases ih h with hsame | ⟨q, hq, hhead, haddr⟩
      · rw [hsame]
        rcases ble_addr_readToken hread with hsame' | ⟨hhead, haddr⟩
        · exact Or.inl hsame'
        · exact Or.inr ⟨p, List.mem_cons_self, hhead, haddr⟩
      · exact Or.inr ⟨q, List.mem_cons_of_mem _ hq, hhead, haddr⟩

/-- If the bytes behind the tag at place `j + 1` of `w` are the address, then each place
of it has the byte that stands `j + 3` places on, or a NUL for a delimiter. -/
theorem copied_place {a w : List UInt8} {j k : Nat} {c : UInt8}
    (heq : ((cut 60 (w.drop (j + 1))).drop 2).take BLE_ADDR_SIZE = a) (hk : k < BLE_ADDR_SIZE)
    (hc : w[j + k + 3]? = some c) : a[k]? = some c ∨ ¬ InToken 60 c ∧ a[k]? = some 0 := by
  have hread : a[k]? = (cut 60 (w.drop (j + 1)))[k + 2]? := by
    rw [← heq, List.getElem?_take_of_lt hk, List.getElem?_drop, Nat.add_comm 2 k]
  rw [hread]
  apply cut_getElem?
  rw [List.getElem?_drop, ← hc]
  congr 1
  omega

/-- Where a `<` of the address starts another token with the tag of the address, the six
bytes behind that tag are not the address: they come from behind it. -/
theorem reread_ne {a s : List UInt8} (ha : a.length = BLE_ADDR_SIZE) (hopen : 60 ∈ cstr a)
    (hs : (∃ rest, s = 0 :: rest) ∨ ∃ t rest, s = 60 :: t :: 62 :: rest) {j : Nat}
    (h60 : a[j]? = some 60) (h98 : a[j + 1]? = some 98) :
    ((cut 60 ((a ++ 60 :: 47 :: 98 :: 62 :: s).drop (j + 1))).drop 2).take BLE_ADDR_SIZE ≠ a := by
  intro heq
  have hkept : ∀ k c, k < BLE_ADDR_SIZE → InToken 60 c →
      (a ++ 60 :: 47 :: 98 :: 62 :: s)[j + k + 3]? = some c → a[k]? = some c :=
    fun k c hk hin hc => (copied_place heq hk hc).resolve_right fun h => h.1 hin
  have hslash : InToken 60 47 := by decide
  have htag : InToken 60 98 := by decide
  have hclose : InToken 60 62 := by decide
  have hj : j < 5 := by
    obtain ⟨hlt, -⟩ := List.getElem?_eq_some_iff.mp h98
    simp only [ha, BLE_ADDR_SIZE] at hlt
    omega
  -- the closing tag behind the address is copied into it, and for every place of the `<`
  -- it meets a byte that is known
  match a, ha with
  | [a0, a1, a2, a3, a4, a5], _ =>
    interval_cases j
    · obtain rfl : a4 = 47 := Option.some.inj (hkept 4 47 (by decide) hslash rfl)
      obtain rfl : a1 = 47 := Option.some.inj (hkept 1 47 (by decide) hslash rfl)
      exact absurd (Option.some.inj h98) (by decide)
    · obtain rfl : a2 = 98 := Option.some.inj h98
      rcases copied_place (k := 2) (c := 60) heq (by decide) rfl with h | ⟨-, h⟩
      · exact absurd (Option.some.inj h) (by decide)
      · exact absurd (Option.some.inj h) (by decide)
    · obtain rfl : a2 = 47 := Option.some.inj (hkept 2 47 (by decide) hslash rfl)
      exact absurd (Option.some.inj h60) (by decide)
    · obtain rfl : a3 = 62 := Option.some.inj (hkept 3 62 (by decide) hclose rfl)
      exact absurd (Option.some.inj h60) (by decide)
    · rcases hs with ⟨rest, rfl⟩ | ⟨t, rest, rfl⟩
      · obtain rfl : a0 = 47 := Option.some.inj (hkept 0 47 (by decide) hslash rfl)
        obtain rfl : a1 = 98 := Option.some.inj (hkept 1 98 (by decide) htag rfl)
        obtain rfl : a2 = 62 := Option.some.inj (hkept 2 62 (by decide) hclose rfl)
        have h3 : a3 = 0 := by
          rcases copied_place (k := 3) (c := 0) heq (by decide) rfl with h | ⟨-, h⟩
          · exact Option.some.inj h
          · exact Option.some.inj h
        subst h3
        exact absurd hopen (by simp [cstr])
      · obtain rfl : a5 = 62 := Option.some.inj (hkept 5 62 (by decide) hclose rfl)
        exact absurd (Option.some.inj h98) (by decide)

/-- Behind a `<` in the address no token has the address. -/
theorem not_address_behind {x : Values} (hopen : 60 ∈ cstr x.ble_addr) {order : List Tag}
    (horder : .ble ∉ order) {pre b rest p : List UInt8} (haddr : x.ble_addr = pre ++ 60 :: b)
    (hp : p ∈ starts 60 true
      (b ++ 60 :: ([47, Tag.ble.char, 62] ++ (written x order ++ 0 :: rest))))
    (hhead : p.head? = some 98) : ((cut 60 p).drop 2).take BLE_ADDR_SIZE ≠ x.ble_addr := by
  rcases mem_starts_append hp with ⟨y, z, hz, rfl, hb⟩ | ⟨fresh, hq⟩
  · obtain ⟨pre', hpre⟩ : ∃ pre', x.ble_addr = pre' ++ 60 :: z := by
      rcases hb with ⟨-, rfl⟩ | rfl
      · exact ⟨pre, haddr⟩
      · exact ⟨pre ++ 60 :: y, by rw [haddr]; simp⟩
    obtain ⟨c, z', rfl⟩ := List.exists_cons_of_ne_nil hz
    obtain rfl : c = 98 := Option.some.inj hhead
    have hs : (∃ r, written x order ++ 0 :: rest = 0 :: r) ∨
        ∃ t r, written x order ++ 0 :: rest = 60 :: t :: 62 :: r := by
      cases order with
      | nil => exact Or.inl ⟨rest, rfl⟩
      | cons t order => exact Or.inr ⟨t.char, _, by rw [written_cons]; rfl⟩
    have h60 : x.ble_addr[pre'.length]? = some 60 := by simp [hpre]
    have h98 : x.ble_addr[pre'.length + 1]? = some 98 := by simp [hpre]
    have hplace : (x.ble_addr ++ 60 :: 47 :: 98 :: 62 :: (written x order ++ 0 :: rest)).drop
        (pre'.length + 1) =
        98 :: z' ++ 60 :: ([47, Tag.ble.char, 62] ++ (written x order ++ 0 :: rest)) := by
      rw [hpre]
      simp [Tag.char]
    rw [← hplace]
    exact reread_ne x.ble_addr_length hopen hs h60 h98
  · have hclean := clean_of_not_mem x horder
    have hstops : ∀ order, Stops (written x order ++ 0 :: rest) := fun o => stops_written x o rest
    rw [starts_open, starts_token (inToken_closing .ble) (List.cons_ne_nil _ _),
      starts_of_stops (hstops order)] at hq
    rcases List.mem_cons.mp hq with rfl | hq
    · exact absurd (Option.some.inj hhead) (by decide)
    · rcases head_of_written hclean hstops hq with ⟨t, ht, htag⟩ | hslash | hend
      · rw [hhead] at htag
        cases t with
        | ble => exact absurd ht horder
        | _ => exact absurd (Option.some.inj htag) (by decide)
      · rw [hhead] at hslash
        exact absurd (Option.some.inj hslash) (by decide)
      · rw [starts, if_pos rfl] at hend
        cases hend

/-- An address with a `<` before any NUL is never read. -/
theorem not_holds_ble {x : Values} (hopen : 60 ∈ cstr x.ble_addr) {order : List Tag}
    (horder : .ble ∉ order) {rest : List UInt8} {conf conf' : ConfData}
    (hconf : ¬ Holds x conf .ble)
    (h : readAll (starts 60 true (written x (.ble :: order) ++ 0 :: rest)) conf = .ok conf') :
    ¬ Holds x conf' .ble := by
  intro hholds
  have hholds' : List.ofFn conf'.ble_addr = x.ble_addr := hholds
  obtain ⟨a, b, haddr, ha⟩ := split_of_mem_cstr hopen
  have htok : ∀ c ∈ 98 :: 62 :: a, InToken 60 c := inToken_opening .ble ha
  have hsplit : written x (.ble :: order) ++ 0 :: rest = 60 :: ((98 :: 62 :: a) ++
      60 :: (b ++ 60 :: ([47, Tag.ble.char, 62] ++ (written x order ++ 0 :: rest)))) := by
    have hbytes : x.bytes .ble = a ++ 60 :: b := haddr
    rw [written_cons, hbytes]
    simp [Tag.char]
  rw [hsplit, starts_open, starts_token htok (List.cons_ne_nil _ _), starts_open] at h
  rcases ble_addr_readAll h with hsame | ⟨p, hp, hhead, hread⟩
  · apply hconf
    unfold Holds
    rw [← hsame]
    exact hholds
  · rw [hholds'] at hread
    rcases List.mem_cons.mp hp with rfl | hp
    · -- the cut leaves a NUL where the address has its `<`
      rw [cut_append htok not_inToken_open, haddr] at hread
      have hlt : a.length < BLE_ADDR_SIZE := by
        rw [← x.ble_addr_length, haddr, List.length_append, List.length_cons]
        omega
      have hplace := congrArg (fun l => l[a.length]?) hread
      simp only [List.getElem?_take_of_lt hlt] at hplace
      simp at hplace
    · obtain ⟨c, hc, hcut⟩ := head_cut (token_ne_nil hp)
      rw [hhead] at hcut
      exact not_address_behind hopen horder haddr hp (hc.trans hcut.symm) hread.symm

/-! ## What was written and read -/

theorem written_append (x : Values) (before after : List Tag) (s : List UInt8) :
    written x (before ++ after) ++ s = written x before ++ (written x after ++ s) := by
  unfold written
  rw [List.flatMap_append, List.append_assoc]

/-- The address stands between the fields `before` and the fields `after`, and each other
field is one of these. -/
structure Around (before after : List Tag) : Prop where
  all : ∀ t, t ∈ before ++ .ble :: after
  not_before : .ble ∉ before
  not_after : .ble ∉ after
  apart : ∀ t ∈ after, t ∉ before
  short : (before ++ .ble :: after).length = 5

theorem around_of_perm {before after : List Tag} (h : (before ++ .ble :: after).Perm Tag.all) :
    Around before after := by
  have hnodup : (before ++ .ble :: after).Nodup := h.nodup_iff.mpr (by decide)
  obtain ⟨-, hrest, hapart⟩ := List.nodup_append.mp hnodup
  refine ⟨?_, ?_, (List.nodup_cons.mp hrest).1, ?_, h.length_eq⟩
  · intro t
    rw [h.mem_iff]
    cases t <;> decide
  · intro hmem
    exact hapart _ hmem _ List.mem_cons_self rfl
  · intro t ht hmem
    exact hapart t hmem t (List.mem_cons_of_mem _ ht) rfl

section inverse

variable {x : Values} {before after : List Tag}

/-- The fields in front of the address are read, whatever the address is. -/
theorem read_around (h : Around before after) (x : Values) (junk : List UInt8) : ∃ rest, ∀ conf,
    _read_config (some (written x (before ++ .ble :: after) ++ 0 :: junk)) conf =
      (readAll (starts 60 true (written x (.ble :: after) ++ 0 :: rest))
        (storedAll x conf before)).map fun conf => (0, conf) := by
  have hne : before ++ .ble :: after ≠ [] := List.ne_nil_of_mem (h.all .ble)
  have hlen : (written x (before ++ .ble :: after)).length < BUFF_SIZE := by
    have hfields := written_length_le x (before ++ .ble :: after)
    rw [h.short] at hfields
    exact hfields.trans_lt (by decide)
  obtain ⟨rest, hrest⟩ := read_written x hne hlen junk
  refine ⟨rest, ?_⟩
  intro conf
  have hstops : ∀ o, Stops (written x o ++ (written x (.ble :: after) ++ 0 :: rest)) := by
    intro o
    rw [← written_append]
    exact stops_written x _ rest
  rw [hrest, written_append, readAll_written (clean_of_not_mem x h.not_before) hstops]

/-- What is read of an address that was got back, and of all fields behind it. -/
theorem readAll_of_inverts (h : Around before after) (hinv : Inverts x (before ++ .ble :: after)) :
    ∃ rest, ∀ conf, ∃ conf', readAll (starts 60 true (written x (.ble :: after) ++ 0 :: rest))
      (storedAll x conf before) = .ok conf' ∧ ∀ t, Holds x conf' t := by
  obtain ⟨rest, hrest⟩ := read_around h x []
  refine ⟨rest, ?_⟩
  intro conf
  obtain ⟨conf', hconf', hholds⟩ := hinv conf []
  rw [hrest] at hconf'
  obtain ⟨conf1, hconf1, heq⟩ := of_map_ok hconf'
  obtain rfl : conf1 = conf' := (Prod.mk.inj heq).2
  exact ⟨conf1, hconf1, hholds⟩

theorem closed_of_inverts (h : Around before after)
    (hinv : Inverts x (before ++ .ble :: after)) : 60 ∉ cstr x.ble_addr := by
  intro hopen
  obtain ⟨rest, hread⟩ := readAll_of_inverts h hinv
  obtain ⟨conf, hconf⟩ := exists_not_holds x .ble
  obtain ⟨conf', hconf', hholds⟩ := hread conf
  have hbefore : ¬ Holds x (storedAll x conf before) .ble := by
    rw [holds_storedAll]
    exact not_or.mpr ⟨h.not_before, hconf⟩
  exact not_holds_ble hopen h.not_after hbefore hconf' (hholds .ble)

/-- A NUL in the address ends the string, and a field behind it keeps its old value. -/
theorem last_of_inverts (h : Around before after) (hinv : Inverts x (before ++ .ble :: after))
    (hzero : 0 ∈ x.ble_addr) : after = [] := by
  by_contra hne
  obtain ⟨t, ht⟩ := List.exists_mem_of_ne_nil after hne
  have htag : t ≠ .ble := by
    rintro rfl
    exact h.not_after ht
  obtain ⟨rest, hread⟩ := readAll_of_inverts h hinv
  obtain ⟨conf, hconf⟩ := exists_not_holds x t
  obtain ⟨conf', hconf', hholds⟩ := hread conf
  rw [readAll_ble (closed_of_inverts h hinv) hzero] at hconf'
  obtain rfl := Except.ok.inj hconf'
  have hheld := (holds_stored_ne x (storedAll x conf before) htag).mp (hholds t)
  rw [holds_storedAll] at hheld
  exact hheld.elim (h.apart t ht) hconf

theorem inverts_of_last (h : Around before after) (hopen : 60 ∉ cstr x.ble_addr)
    (hzero : 0 ∈ x.ble_addr) (hafter : after = []) : Inverts x (before ++ .ble :: after) := by
  subst hafter
  intro conf junk
  obtain ⟨rest, hrest⟩ := read_around h x junk
  rw [hrest, readAll_ble hopen hzero]
  refine ⟨_, rfl, ?_⟩
  intro t
  have hlast : stored x (storedAll x conf before) .ble = storedAll x conf (before ++ [.ble]) := by
    unfold storedAll
    rw [List.foldl_append]
    rfl
  rw [hlast, holds_storedAll]
  exact Or.inl (h.all t)

theorem inverts_of_clean (h : Around before after) (hclean : Clean x .ble) :
    Inverts x (before ++ .ble :: after) := by
  intro conf junk
  obtain ⟨rest, hrest⟩ := read_around h x junk
  have hclean' : ∀ t ∈ Tag.ble :: after, Clean x t := by
    intro t ht
    by_cases htag : t = .ble
    · exact htag ▸ hclean
    · exact clean_of_ne x htag
  rw [hrest, readAll_written hclean' (fun o => stops_written x o rest), starts, if_pos rfl]
  refine ⟨_, rfl, ?_⟩
  intro t
  rw [holds_storedAll, holds_storedAll]
  have ht := h.all t
  rw [List.mem_append] at ht
  tauto

end inverse

/-- The parser gets back what was written exactly when the address has no `<` before its
first NUL, and no NUL unless it is the last field. -/
theorem inverts_iff (x : Values) {order : List Tag} (horder : order.Perm Tag.all) :
    Inverts x order ↔ 60 ∉ cstr x.ble_addr ∧ (0 ∉ x.ble_addr ∨ order.getLast? = some .ble) := by
  have hmem : .ble ∈ order := horder.mem_iff.mpr (by decide)
  obtain ⟨before, after, rfl⟩ := List.append_of_mem hmem
  have h := around_of_perm horder
  have hlast : (before ++ .ble :: after).getLast? = some .ble ↔ after = [] := by
    rw [List.getLast?_append_of_ne_nil _ (List.cons_ne_nil _ _)]
    refine ⟨?_, fun hafter => hafter ▸ rfl⟩
    intro hlast
    cases after with
    | nil => rfl
    | cons t after =>
      rw [List.getLast?_cons_cons] at hlast
      exact absurd (List.mem_of_getLast? hlast) h.not_after
  rw [hlast]
  refine ⟨?_, ?_⟩
  · intro hinv
    refine ⟨closed_of_inverts h hinv, ?_⟩
    rw [or_iff_not_imp_left, not_not]
    exact last_of_inverts h hinv
  · rintro ⟨hopen, hend⟩
    by_cases hzero : 0 ∈ x.ble_addr
    · exact inverts_of_last h hopen hzero (hend.resolve_left (not_not.mpr hzero))
    · apply inverts_of_clean h
      rw [cstr_eq_self hzero] at hopen
      intro c hc
      refine ⟨?_, ?_⟩
      · rintro rfl
        exact hopen hc
      · rintro rfl
        exact hzero hc

/-- A configuration with nothing to trip over. -/
def plain (ble_addr : List UInt8) (h : ble_addr.length = BLE_ADDR_SIZE) : Values where
  ssid := [97]
  wpa2_pswd := []
  beam := [98, 99]
  ble_addr
  service_id := 1
  ssid_le := by decide
  wpa2_pswd_le := by decide
  beam_le := by decide
  ble_addr_length := h
  clean := by simp [InToken]

/-- An address without a NUL comes back wherever it stands. -/
theorem inverts_plain : Inverts (plain [1, 2, 3, 4, 5, 6] rfl) Tag.all :=
  (inverts_iff (plain [1, 2, 3, 4, 5, 6] rfl) (List.Perm.refl _)).mpr
    ⟨by decide, Or.inl (by decide)⟩

/-- A NUL in the address, and the service behind it is lost. -/
theorem an_address_with_a_nul_ends_it : ¬ ∀ (x : Values) (order : List Tag),
    order.Perm Tag.all → Inverts x order := by
  intro hall
  have hinv := hall (plain [0, 1, 2, 3, 4, 5] rfl) Tag.all (List.Perm.refl _)
  have haround : Around [.ssid, .wpa2_pswd, .satid] [.service] :=
    around_of_perm (List.Perm.refl _)
  have hafter := last_of_inverts haround hinv (by decide)
  exact absurd hafter (List.cons_ne_nil _ _)

end conf_format

end udp_service
