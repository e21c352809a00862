-- The cluster of terminals of `Terminals_Handler.c`: a table with one entry for
-- each terminal number, and a count of the entries in use.
import UdpService.PktHeaders
import UdpService.Lib.Runs

open blocks runs

namespace udp_service.terminals

structure TerminalInfo where
  used : Bool
  terminalID : UInt16
  port : UInt16
  ip : UInt32
  hiSkyId : Buffer UInt8 6
deriving DecidableEq

/-- The memory that `memset` leaves. -/
def TerminalInfo.zero : TerminalInfo :=
  { used := false, terminalID := 0, port := 0, ip := 0, hiSkyId := fun _ => 0 }

/-- `TerminalCluster_t` of a build with `N` as its `MAX_TERMINALS_COUNT`. -/
structure TerminalCluster (N : Nat) where
  TerminalPool : Fin N → TerminalInfo
  ActiveTerminals : UInt16
deriving DecidableEq

variable {N : Nat}

/-- The test after `malloc` is of the caller's pointer, which is never NULL, so
that a failed allocation is written to. -/
def init_terminal_cluster (allocated : Bool) : Except Fault (TerminalCluster N) :=
  if allocated then .ok { TerminalPool := fun _ => .zero, ActiveTerminals := 0 }
  else .error .nullStore

/-- The entry is overwritten, and counted when it was not in use. -/
def TerminalCluster.register (c : TerminalCluster N) (i : Fin N) (info : TerminalInfo) :
    TerminalCluster N :=
  { TerminalPool := Function.update c.TerminalPool i info
    ActiveTerminals :=
      if (c.TerminalPool i).used then c.ActiveTerminals else c.ActiveTerminals + 1 }

/-- The entry is zeroed, and no longer counted. -/
def TerminalCluster.clear (c : TerminalCluster N) (i : Fin N) : TerminalCluster N :=
  { TerminalPool := Function.update c.TerminalPool i .zero
    ActiveTerminals := c.ActiveTerminals - 1 }

/-- The return value and the cluster. The number 0 is not refused, and its index
is -1. -/
def add_TerminalData (c : Option (TerminalCluster N)) (terminalId port : UInt16) (ip : UInt32)
    (hiSkyId : Buffer UInt8 6) : Except Fault (Int × Option (TerminalCluster N)) :=
  match c with
  | none => .ok (-1, none)
  | some c =>
    if h : terminalId.toNat > N then .ok (-1, some c)
    else if h0 : terminalId.toNat = 0 then .error .slotIndex
    else
      .ok (0, some (c.register ⟨terminalId.toNat - 1, by omega⟩
        { used := true, terminalID := terminalId, port, ip, hiSkyId }))

def remove_terminal (c : Option (TerminalCluster N)) (terminalId : UInt16) :
    Int × Option (TerminalCluster N) :=
  if h : terminalId.toNat > N ∨ terminalId.toNat = 0 then (-1, c)
  else
    match c with
    | none => (-1, none)
    | some c =>
      let i : Fin N := ⟨terminalId.toNat - 1, by omega⟩
      if (c.TerminalPool i).used then (0, some (c.clear i)) else (-1, some c)

/-- `none` is NULL. -/
def get_terminal (c : Option (TerminalCluster N)) (terminalId : UInt16) : Option TerminalInfo :=
  if h : terminalId.toNat > N ∨ terminalId.toNat = 0 then none
  else
    match c with
    | none => none
    | some c =>
      let i : Fin N := ⟨terminalId.toNat - 1, by omega⟩
      if (c.TerminalPool i).used then some (c.TerminalPool i) else none

/-! ## The calls -/

/-- A number that a terminal of this build can have. -/
def Known (N : Nat) (id : UInt16) : Prop := 1 ≤ id.toNat ∧ id.toNat ≤ N

instance (N : Nat) (id : UInt16) : Decidable (Known N id) := inferInstanceAs (Decidable (_ ∧ _))

def indexOf {id : UInt16} (h : Known N id) : Fin N :=
  ⟨id.toNat - 1, by have := h.1; have := h.2; omega⟩

inductive Call where
  | add (terminalId port : UInt16) (ip : UInt32) (hiSkyId : Buffer UInt8 6)
  | remove (terminalId : UInt16)
deriving DecidableEq

def Call.terminalId : Call → UInt16
  | .add terminalId _ _ _ => terminalId
  | .remove terminalId => terminalId

/-- What a call leaves under its number. -/
def Call.entry : Call → Option TerminalInfo
  | .add terminalID port ip hiSkyId => some { used := true, terminalID, port, ip, hiSkyId }
  | .remove _ => none

def Call.isAdd : Call → Bool
  | .add _ _ _ _ => true
  | .remove _ => false

def step (c : TerminalCluster N) : Call → Option (TerminalCluster N)
  | .add terminalId port ip hiSkyId =>
    match add_TerminalData (some c) terminalId port ip hiSkyId with
    | .ok (_, c') => c'
    | .error _ => none
  | .remove terminalId => (remove_terminal (some c) terminalId).2

theorem indexOf_ne {id id' : UInt16} (h : Known N id) (h' : Known N id') (hne : id ≠ id') :
    indexOf h ≠ indexOf h' := by
  intro hsame
  apply hne
  apply UInt16.toNat_inj.mp
  have hval : id.toNat - 1 = id'.toNat - 1 := congrArg Fin.val hsame
  have := h.1
  have := h'.1
  omega

theorem add_known (c : TerminalCluster N) {id : UInt16} (h : Known N id) (port : UInt16)
    (ip : UInt32) (hiSkyId : Buffer UInt8 6) :
    add_TerminalData (some c) id port ip hiSkyId =
      .ok (0, some (c.register (indexOf h)
        { used := true, terminalID := id, port, ip, hiSkyId })) := by
  unfold add_TerminalData
  simp only
  rw [dif_neg (Nat.not_lt.mpr h.2), dif_neg (Nat.pos_iff_ne_zero.mp h.1)]
  rfl

theorem not_unknown {id : UInt16} (h : Known N id) : ¬ (id.toNat > N ∨ id.toNat = 0) := by
  have := h.1
  have := h.2
  omega

theorem remove_known (c : TerminalCluster N) {id : UInt16} (h : Known N id) :
    remove_terminal (some c) id =
      if (c.TerminalPool (indexOf h)).used then (0, some (c.clear (indexOf h)))
      else (-1, some c) := by
  unfold remove_terminal
  rw [dif_neg (not_unknown h)]
  rfl

theorem get_known (c : TerminalCluster N) {id : UInt16} (h : Known N id) :
    get_terminal (some c) id =
      if (c.TerminalPool (indexOf h)).used then some (c.TerminalPool (indexOf h)) else none := by
  unfold get_terminal
  rw [dif_neg (not_unknown h)]
  rfl

/-- What a call with a known number does. -/
theorem step_known (c : TerminalCluster N) {a : Call} (h : Known N a.terminalId) :
    (∃ info, a.entry = some info ∧ info.used = true ∧
        step c a = some (c.register (indexOf h) info)) ∨
      (a.entry = none ∧ (c.TerminalPool (indexOf h)).used = true ∧
        step c a = some (c.clear (indexOf h))) ∨
      (a.entry = none ∧ (c.TerminalPool (indexOf h)).used = false ∧ step c a = some c) := by
  cases a with
  | add id port ip hiSkyId =>
    have h' : Known N id := h
    refine Or.inl ⟨_, rfl, rfl, ?_⟩
    simp only [step]
    rw [add_known c h']
    rfl
  | remove id =>
    have h' : Known N id := h
    have hs : step c (.remove id) = (if (c.TerminalPool (indexOf h')).used then
        ((0 : Int), some (c.clear (indexOf h'))) else (-1, some c)).2 :=
      congrArg Prod.snd (remove_known c h')
    by_cases hused : (c.TerminalPool (indexOf h')).used = true
    · exact Or.inr (Or.inl ⟨rfl, hused, by rw [hs, if_pos hused]; rfl⟩)
    · exact Or.inr (Or.inr ⟨rfl, (Bool.not_eq_true _).mp hused, by rw [hs, if_neg hused]⟩)

/-- A call changes no entry but its own. -/
theorem step_frame {c c' : TerminalCluster N} {a : Call} (h : Known N a.terminalId)
    (ha : step c a = some c') {i : Fin N} (hi : i ≠ indexOf h) :
    c'.TerminalPool i = c.TerminalPool i := by
  rcases step_known c h with ⟨info, -, -, hs⟩ | ⟨-, -, hs⟩ | ⟨-, -, hs⟩ <;>
    rw [hs] at ha <;> cases ha
  · exact Function.update_of_ne hi _ _
  · exact Function.update_of_ne hi _ _
  · rfl

/-- A call leaves its own entry under its number. -/
theorem get_step_self {c c' : TerminalCluster N} {a : Call} (h : Known N a.terminalId)
    (ha : step c a = some c') : get_terminal (some c') a.terminalId = a.entry := by
  rw [get_known c' h]
  rcases step_known c h with ⟨info, he, hused, hs⟩ | ⟨he, -, hs⟩ | ⟨he, hused, hs⟩ <;>
    rw [hs] at ha <;> cases ha <;> rw [he]
  · simp [TerminalCluster.register, hused]
  · simp [TerminalCluster.clear, TerminalInfo.zero]
  · simp [hused]

theorem get_step_other {c c' : TerminalCluster N} {a : Call} (h : Known N a.terminalId)
    (ha : step c a = some c') {id : UInt16} (hid : Known N id) (hne : id ≠ a.terminalId) :
    get_terminal (some c') id = get_terminal (some c) id := by
  rw [get_known c' hid, get_known c hid, step_frame h ha (indexOf_ne hid h hne)]

/-! ## The count -/

/-- The entries in use. -/
def used (c : TerminalCluster N) : Finset (Fin N) :=
  Finset.univ.filter fun i => (c.TerminalPool i).used

/-- `ActiveTerminals` is the number of entries in use. -/
def Counted (c : TerminalCluster N) : Prop := c.ActiveTerminals.toNat = (used c).card

theorem mem_used {c : TerminalCluster N} {i : Fin N} : i ∈ used c ↔ (c.TerminalPool i).used := by
  simp [used]

theorem card_used_le (c : TerminalCluster N) : (used c).card ≤ N := by
  simpa using Finset.card_le_univ (used c)

theorem used_register (c : TerminalCluster N) (i : Fin N) {info : TerminalInfo}
    (h : info.used = true) : used (c.register i info) = insert i (used c) := by
  ext j
  rw [mem_used, Finset.mem_insert, mem_used]
  unfold TerminalCluster.register
  by_cases hj : j = i
  · simp [hj, h]
  · simp [hj]

theorem used_clear (c : TerminalCluster N) (i : Fin N) : used (c.clear i) = (used c).erase i := by
  ext j
  rw [mem_used, Finset.mem_erase, mem_used]
  unfold TerminalCluster.clear
  by_cases hj : j = i
  · simp [hj, TerminalInfo.zero]
  · simp [hj]

/-- The count is right after a call when it was before: with no more than 65535
entries it cannot wrap. -/
theorem Counted.step {c c' : TerminalCluster N} {a : Call} (hN : N ≤ 65535) (hc : Counted c)
    (h : Known N a.terminalId) (ha : step c a = some c') : Counted c' := by
  have hle := card_used_le c'
  unfold Counted at hc ⊢
  rcases step_known c h with ⟨info, -, hinfo, hs⟩ | ⟨-, hused, hs⟩ | ⟨-, -, hs⟩ <;>
    rw [hs] at ha <;> cases ha
  · rw [used_register c _ hinfo] at hle ⊢
    simp only [TerminalCluster.register]
    by_cases hi : (c.TerminalPool (indexOf h)).used = true
    · rw [if_pos hi, Finset.insert_eq_of_mem (mem_used.mpr hi), hc]
    · have hnew : indexOf h ∉ used c := fun hmem => hi (mem_used.mp hmem)
      rw [Finset.card_insert_of_notMem hnew] at hle
      rw [if_neg hi, Finset.card_insert_of_notMem hnew, UInt16.toNat_add, hc]
      exact Nat.mod_eq_of_lt (by simp only [UInt16.reduceToNat]; omega)
  · have hmem := mem_used.mpr hused
    have hpos := Finset.card_pos.mpr ⟨_, hmem⟩
    have hlt : (used c).card < 2 ^ 16 := hc ▸ UInt16.toNat_lt _
    rw [used_clear, Finset.card_erase_of_mem hmem]
    simp only [TerminalCluster.clear]
    rw [UInt16.toNat_sub, hc]
    simp only [UInt16.reduceToNat]
    omega
  · exact hc

/-! ## The history of a number -/

/-- The calls of a run that changed the cluster. -/
def changes (c : TerminalCluster N) : List Call → List Call
  | [] => []
  | a :: as =>
    match step c a with
    | some c' => if c' = c then changes c' as else a :: changes c' as
    | none => []

/-- The last of the calls that is on the number. -/
def lastOn (id : UInt16) (calls : List Call) : Option Call :=
  (calls.filter (·.terminalId = id)).getLast?

theorem changes_snoc {c₀ c c' : TerminalCluster N} {as : List Call} {a : Call}
    (hr : run step c₀ as = some c) (ha : step c a = some c') :
    changes c₀ (as ++ [a]) = changes c₀ as ++ if c' = c then [] else [a] := by
  induction as generalizing c₀ with
  | nil =>
    obtain rfl : c₀ = c := by simpa [run] using hr
    simp only [List.nil_append, changes, ha]
  | cons b as ih =>
    obtain ⟨c₁, hb, hr'⟩ := run_cons_eq_some.mp hr
    simp only [List.cons_append, changes, hb]
    rw [ih hr']
    by_cases hsame : c₁ = c₀
    · rw [if_pos hsame, if_pos hsame]
    · rw [if_neg hsame, if_neg hsame, List.cons_append]

theorem lastOn_snoc_self (a : Call) (calls : List Call) :
    lastOn a.terminalId (calls ++ [a]) = some a := by
  simp [lastOn]

theorem lastOn_snoc_other {id : UInt16} {a : Call} (hne : id ≠ a.terminalId)
    (calls : List Call) : lastOn id (calls ++ [a]) = lastOn id calls := by
  simp [lastOn, Ne.symm hne]

/-- Under a number is what the last call on it left that changed the cluster, and
that is what the last add to it left, or nothing. -/
structure Kept (as : List Call) (c₀ c : TerminalCluster N) (id : UInt16) : Prop where
  change : get_terminal (some c) id = (lastOn id (changes c₀ as)).bind Call.entry
  add : get_terminal (some c) id = none ∨
    get_terminal (some c) id = (lastOn id (as.filter Call.isAdd)).bind Call.entry

theorem Kept.snoc {as : List Call} {c₀ c c' : TerminalCluster N} {id : UInt16} {a : Call}
    (h : Kept as c₀ c id) (hr : run step c₀ as = some c) (hid : Known N id)
    (hknown : Known N a.terminalId) (ha : step c a = some c') : Kept (as ++ [a]) c₀ c' id := by
  by_cases hne : id = a.terminalId
  · subst hne
    have hget := get_step_self hknown ha
    refine ⟨?_, ?_⟩
    · rw [changes_snoc hr ha]
      by_cases hsame : c' = c
      · rw [if_pos hsame, List.append_nil, hsame]
        exact h.change
      · rw [if_neg hsame, lastOn_snoc_self, hget]
        rfl
    · cases a with
      | add id port ip hiSkyId =>
        have hlast := lastOn_snoc_self (.add id port ip hiSkyId) (as.filter Call.isAdd)
        right
        rw [hget, List.filter_append]
        exact (congrArg (·.bind Call.entry) hlast).symm
      | remove id => exact Or.inl hget
  · have hget := get_step_other hknown ha hid hne
    refine ⟨?_, ?_⟩
    · rw [hget, h.change, changes_snoc hr ha]
      by_cases hsame : c' = c
      · rw [if_pos hsame, List.append_nil]
      · rw [if_neg hsame, lastOn_snoc_other hne]
    · rw [hget, List.filter_append, List.filter_singleton]
      rcases a.isAdd
      · rw [cond_false, List.append_nil]
        exact h.add
      · rw [cond_true, lastOn_snoc_other hne]
        exact h.add

/-- A run of calls with known numbers goes through, and at its end the count is
right and every number has what was kept under it. -/
theorem run_known {as : List Call} {c₀ : TerminalCluster N} (hN : N ≤ 65535)
    (hinit : init_terminal_cluster true = .ok c₀) (hids : ∀ a ∈ as, Known N a.terminalId) :
    ∃ c, run step c₀ as = some c ∧ Counted c ∧ ∀ id, Known N id → Kept as c₀ c id := by
  obtain rfl := Except.ok.inj hinit
  induction as using List.reverseRecOn with
  | nil =>
    refine ⟨_, rfl, ?_, ?_⟩
    · simp [Counted, used, TerminalInfo.zero]
    · intro id hid
      have hnone : get_terminal
          (some { TerminalPool := fun _ : Fin N => .zero, ActiveTerminals := 0 }) id = none := by
        rw [get_known _ hid]
        rfl
      exact ⟨hnone, Or.inl hnone⟩
  | append_singleton as a ih =>
    obtain ⟨c, hr, hcount, hkept⟩ := ih fun b hb => hids b (List.mem_append_left _ hb)
    have hknown := hids a (by simp)
    obtain ⟨c', ha⟩ : ∃ c', step c a = some c' := by
      rcases step_known c hknown with ⟨info, -, -, hs⟩ | ⟨-, -, hs⟩ | ⟨-, -, hs⟩ <;> exact ⟨_, hs⟩
    refine ⟨c', by rw [run_snoc hr, ha], hcount.step hN hknown ha, ?_⟩
    intro id hid
    exact (hkept id hid).snoc hr hid hknown ha

theorem entry_eq_some {a : Call} {info : TerminalInfo} :
    a.entry = some info ↔ ∃ id port ip hiSkyId, a = .add id port ip hiSkyId ∧
      info = { used := true, terminalID := id, port, ip, hiSkyId } := by
  cases a with
  | add id port ip hiSkyId =>
    simp only [Call.entry, Option.some.injEq, Call.add.injEq]
    refine ⟨fun h => ⟨id, port, ip, hiSkyId, ⟨rfl, rfl, rfl, rfl⟩, h.symm⟩, ?_⟩
    rintro ⟨_, _, _, _, ⟨rfl, rfl, rfl, rfl⟩, h⟩
    exact h.symm
  | remove id => simp [Call.entry]

theorem lastOn_id {id : UInt16} {calls : List Call} {a : Call} (h : lastOn id calls = some a) :
    a.terminalId = id := by
  have hmem := List.mem_of_getLast? h
  simpa using (List.mem_filter.mp hmem).2

/-- What is kept under a number as the last calls on it say. -/
theorem Kept.get_iff {as : List Call} {c₀ c : TerminalCluster N} {id : UInt16}
    (h : Kept as c₀ c id) :
    ((get_terminal (some c) id).isSome ↔
        ∃ port ip hiSkyId, lastOn id (changes c₀ as) = some (.add id port ip hiSkyId)) ∧
      ∀ info, get_terminal (some c) id = some info →
        ∃ port ip hiSkyId, lastOn id (as.filter Call.isAdd) = some (.add id port ip hiSkyId) ∧
          info = { used := true, terminalID := id, port, ip, hiSkyId } := by
  refine ⟨?_, ?_⟩
  · rw [h.change, Option.isSome_iff_exists]
    refine ⟨?_, ?_⟩
    · rintro ⟨info, hinfo⟩
      obtain ⟨a, hlast, hentry⟩ := Option.bind_eq_some_iff.mp hinfo
      obtain ⟨id', port, ip, hiSkyId, rfl, -⟩ := entry_eq_some.mp hentry
      obtain rfl : id' = id := lastOn_id hlast
      exact ⟨port, ip, hiSkyId, hlast⟩
    · rintro ⟨port, ip, hiSkyId, hlast⟩
      rw [hlast]
      exact ⟨_, rfl⟩
  · intro info hinfo
    rcases h.add with hnone | hadd
    · rw [hnone] at hinfo
      cases hinfo
    · rw [hadd] at hinfo
      obtain ⟨a, hlast, hentry⟩ := Option.bind_eq_some_iff.mp hinfo
      obtain ⟨id', port, ip, hiSkyId, rfl, hval⟩ := entry_eq_some.mp hentry
      obtain rfl : id' = id := lastOn_id hlast
      exact ⟨port, ip, hiSkyId, hlast, hval⟩

/-- A removal fails exactly for a number with no entry, and then changes nothing. -/
theorem remove_fails_iff (c : TerminalCluster N) {id : UInt16} (h : Known N id) :
    ((remove_terminal (some c) id).1 = -1 ↔ get_terminal (some c) id = none) ∧
      (get_terminal (some c) id = none → (remove_terminal (some c) id).2 = some c) := by
  rw [remove_known c h, get_known c h]
  by_cases hused : (c.TerminalPool (indexOf h)).used = true
  · simp [hused]
  · simp [hused]

/-- The cluster is a map with an exact count, after any calls with known numbers
and before any call to come. An add registers its terminal, a removal leaves none. -/
theorem cluster_is_a_map {as : List Call} {c₀ : TerminalCluster N} (hN : N ≤ 65535)
    (hinit : init_terminal_cluster true = .ok c₀) (hids : ∀ a ∈ as, Known N a.terminalId) :
    ∃ c, run step c₀ as = some c ∧
      c.ActiveTerminals.toNat = (Finset.univ.filter fun i => (c.TerminalPool i).used).card ∧
      (∀ id, Known N id →
        ((get_terminal (some c) id).isSome ↔
            ∃ port ip hiSkyId, lastOn id (changes c₀ as) = some (.add id port ip hiSkyId)) ∧
          (∀ info, get_terminal (some c) id = some info →
            ∃ port ip hiSkyId, lastOn id (as.filter Call.isAdd) = some (.add id port ip hiSkyId) ∧
              info = { used := true, terminalID := id, port, ip, hiSkyId }) ∧
          ((remove_terminal (some c) id).1 = -1 ↔ get_terminal (some c) id = none) ∧
          (get_terminal (some c) id = none → (remove_terminal (some c) id).2 = some c)) ∧
      ∀ a (ha : Known N a.terminalId) c', step c a = some c' →
        get_terminal (some c') a.terminalId = a.entry ∧
          ∀ i, i ≠ indexOf ha → c'.TerminalPool i = c.TerminalPool i := by
  obtain ⟨c, hr, hcount, hkept⟩ := run_known hN hinit hids
  refine ⟨c, hr, hcount, ?_, fun a ha c' hstep =>
    ⟨get_step_self ha hstep, fun i hi => step_frame ha hstep hi⟩⟩
  intro id hid
  exact ⟨(hkept id hid).get_iff.1, (hkept id hid).get_iff.2, remove_fails_iff c hid⟩

/-- Two terminals. The second is added twice and the first comes and goes. -/
theorem two_terminals :
    ∃ c, run step { TerminalPool := fun _ : Fin 2 => .zero, ActiveTerminals := 0 }
        [.add 1 80 7 (fun _ => 1), .add 2 81 8 (fun _ => 2), .remove 1, .remove 1,
          .add 2 82 9 (fun _ => 3)] = some c ∧
      c.ActiveTerminals.toNat = (Finset.univ.filter fun i => (c.TerminalPool i).used).card ∧
      get_terminal (some c) 1 = none ∧
      (get_terminal (some c) 2).map TerminalInfo.port = some 82 := by
  obtain ⟨c, hr, hcount, -⟩ := @cluster_is_a_map 2 [.add 1 80 7 (fun _ => 1),
    .add 2 81 8 (fun _ => 2), .remove 1, .remove 1, .add 2 82 9 (fun _ => 3)] _
    (by decide) rfl (by decide)
  refine ⟨c, hr, hcount, ?_, ?_⟩
  · cases hr
    rfl
  · cases hr
    rfl

/-! ## Numbers that no terminal has -/

/-- The three operations refuse the number, and the cluster stays as it is. -/
def Refused (c : Option (TerminalCluster N)) (id : UInt16) : Prop :=
  (∀ port ip hiSkyId, add_TerminalData c id port ip hiSkyId = .ok (-1, c)) ∧
    remove_terminal c id = (-1, c) ∧ get_terminal c id = none

theorem remove_unknown (c : Option (TerminalCluster N)) {id : UInt16} (h : ¬ Known N id) :
    remove_terminal c id = (-1, c) := by
  unfold Known at h
  unfold remove_terminal
  rw [dif_pos (by omega)]

theorem get_unknown (c : Option (TerminalCluster N)) {id : UInt16} (h : ¬ Known N id) :
    get_terminal c id = none := by
  unfold Known at h
  unfold get_terminal
  rw [dif_pos (by omega)]

/-- The check of `add_TerminalData` has no lower bound: the number 0 gets as far as
the entry at -1, unless the cluster is NULL. -/
theorem add_unknown_iff (c : Option (TerminalCluster N)) {id : UInt16} (h : ¬ Known N id)
    (port : UInt16) (ip : UInt32) (hiSkyId : Buffer UInt8 6) :
    add_TerminalData c id port ip hiSkyId = .ok (-1, c) ↔ c = none ∨ id ≠ 0 := by
  unfold Known at h
  unfold add_TerminalData
  rcases c with _ | c
  · simp
  · by_cases hzero : id = 0
    · simp [hzero]
    · have hnat : id.toNat ≠ 0 := fun hn => hzero (UInt16.toNat_inj.mp hn)
      simp only [dif_pos (show id.toNat > N by omega), ne_eq, hzero, not_false_eq_true, or_true]

/-- A number outside those of the build is refused by all three operations exactly
when it is not 0, or there is no cluster. -/
theorem refused_iff_not_zero (c : Option (TerminalCluster N)) {id : UInt16} (h : ¬ Known N id) :
    Refused c id ↔ c = none ∨ id ≠ 0 := by
  refine ⟨?_, ?_⟩
  · rintro ⟨hadd, -⟩
    exact (add_unknown_iff c h 0 0 fun _ => 0).mp (hadd 0 0 fun _ => 0)
  · intro hc
    refine ⟨?_, remove_unknown c h, get_unknown c h⟩
    intro port ip hiSkyId
    exact (add_unknown_iff c h port ip hiSkyId).mpr hc

/-- The number 2 in the build for one terminal. -/
theorem the_second_of_one_is_refused :
    Refused (some { TerminalPool := fun _ => .zero, ActiveTerminals := 0 } :
      Option (TerminalCluster 1)) 2 :=
  (refused_iff_not_zero _ (by decide)).mpr (Or.inr (by decide))

/-- The number 0 is not refused by `add_TerminalData`. -/
theorem terminal_zero_is_not_refused :
    ¬ ∀ (N : Nat) (c : TerminalCluster N) (id : UInt16), N ≤ 65535 → ¬ Known N id →
      Refused (some c) id := by
  intro h
  have hzero : ¬ Known 1 0 := by decide
  obtain ⟨hadd, -⟩ :=
    h 1 { TerminalPool := fun _ => .zero, ActiveTerminals := 0 } 0 (by decide) hzero
  have hnone := (add_unknown_iff _ hzero 0 0 fun _ => 0).mp (hadd 0 0 fun _ => 0)
  exact absurd hnone (by simp)

end udp_service.terminals
