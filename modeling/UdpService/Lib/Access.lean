-- Buffers that are accessed within their bounds only. A store or a load that would leave its
-- buffer is a fault, so a program that ends without one stayed inside. A loop that is not over
-- when its fuel ends is a fault, too, so it shows that its fuel was enough.
import UdpService.Lib.Blocks
import UdpService.Lib.CStrings

open blocks cstrings

namespace access

/-- An access that leaves its object, or a loop that needs more fuel. -/
inductive Fault
  | store
  | load
  | fuel
deriving DecidableEq

section operations

variable {α : Type}

/-- The elements of `l` stored from offset `off` on. -/
def store {n : Nat} (b : Buffer α n) (off : Nat) (l : List α) : Except Fault (Buffer α n) :=
  if off + l.length ≤ n then .ok (b.write off l) else .error .store

/-- `len` elements from offset `off` on. -/
def load {n : Nat} (b : Buffer α n) (off len : Nat) : Except Fault (List α) :=
  if off + len ≤ n then .ok (((List.ofFn b).drop off).take len) else .error .load

/-- The element of an array at an `int`. -/
def index (a : List α) (i : Int) : Except Fault α :=
  if h : 0 ≤ i ∧ i < a.length then .ok (a.get ⟨i.toNat, by omega⟩) else .error .load

end operations

/-- `strlen` of what stands from offset `off` on. -/
def strlen {n : Nat} (b : Buffer UInt8 n) (off : Nat) : Except Fault Nat :=
  if 0 ∈ (List.ofFn b).drop off then .ok (cstr ((List.ofFn b).drop off)).length else .error .load

/-- The bytes that `snprintf` stores of a text: it cuts it to `size - 1` characters. -/
def snprintf (size : Nat) (s : List UInt8) : List UInt8 := s.take (size - 1) ++ [0]

/-- A string that an array of `size` characters has room for. -/
structure CString (size : Nat) where
  bytes : List UInt8
  nul_not_mem : 0 ∉ bytes
  length_lt : bytes.length < size

/-! ## Steps that have to go well -/

section steps

variable {α β : Type}

theorem bind_eq_ok {x : Except Fault α} {f : α → Except Fault β} {b : β}
    (h : x >>= f = .ok b) : ∃ a, x = .ok a ∧ f a = .ok b := by
  cases x with
  | error e => cases h
  | ok a => exact ⟨a, rfl, h⟩

theorem toOption_eq_some {x : Except Fault α} {a : α} : x.toOption = some a ↔ x = .ok a := by
  cases x <;> simp [Except.toOption]

theorem exists_bind_eq_ok_iff {x : Except Fault α} {f : α → Except Fault β} :
    (∃ b, x >>= f = .ok b) ↔ ∃ a, x = .ok a ∧ ∃ b, f a = .ok b := by
  refine ⟨?_, ?_⟩
  · rintro ⟨b, h⟩
    obtain ⟨a, hx, hf⟩ := bind_eq_ok h
    exact ⟨a, hx, b, hf⟩
  · rintro ⟨a, rfl, h⟩
    exact h

theorem store_ok {n off : Nat} (b : Buffer α n) {l : List α} (h : off + l.length ≤ n) :
    store b off l = .ok (b.write off l) := if_pos h

theorem le_of_store {n off : Nat} {b b' : Buffer α n} {l : List α}
    (h : store b off l = .ok b') : off + l.length ≤ n := by
  by_contra hout
  rw [store, if_neg hout] at h
  cases h

theorem load_ok {n off len : Nat} (b : Buffer α n) (h : off + len ≤ n) :
    load b off len = .ok (((List.ofFn b).drop off).take len) := if_pos h

theorem index_ok {a : List α} {i : Int} (h0 : 0 ≤ i) (hi : i < a.length) :
    index a i = .ok (a.get ⟨i.toNat, by omega⟩) := dif_pos ⟨h0, hi⟩

theorem bounds_of_index {a : List α} {i : Int} {x : α} (h : index a i = .ok x) :
    0 ≤ i ∧ i < a.length := by
  by_contra hout
  rw [index, dif_neg hout] at h
  cases h

end steps

/-! ## What was stored -/

section contents

variable {α : Type} {n off : Nat}

/-- Behind the offset of a store stands what was stored, and then what was there. -/
theorem drop_write (b : Buffer α n) {l : List α} (h : off + l.length ≤ n) :
    (List.ofFn (b.write off l)).drop off = l ++ (List.ofFn b).drop (off + l.length) := by
  apply List.ext_getElem
  · simp only [List.length_drop, List.length_ofFn, List.length_append]
    omega
  · intro i h1 h2
    rw [List.getElem_drop, List.getElem_ofFn]
    simp only [Buffer.write, Nat.le_add_right, if_true, Nat.add_sub_cancel_left]
    rcases Nat.lt_or_ge i l.length with hi | hi
    · rw [List.getElem_append_left hi, List.getElem?_eq_getElem hi, Option.getD_some]
    · rw [List.getElem_append_right hi, List.getElem?_eq_none hi, Option.getD_none,
        List.getElem_drop, List.getElem_ofFn]
      congr 2
      omega

/-- A store leaves what stands before it. -/
theorem take_write_of_le (b : Buffer α n) (l : List α) {k : Nat} (h : k ≤ off) :
    (List.ofFn (b.write off l)).take k = (List.ofFn b).take k := by
  apply List.ext_getElem
  · simp
  · intro i h1 h2
    have hi : ¬ off ≤ i := by
      rw [List.length_take] at h1
      omega
    rw [List.getElem_take, List.getElem_take, List.getElem_ofFn, List.getElem_ofFn]
    exact if_neg hi

/-- A string that was stored with its terminator stands behind the offset. -/
theorem drop_write_string (b : Buffer UInt8 n) {s : List UInt8}
    (h : off + (s ++ [0]).length ≤ n) :
    ∃ rest, (List.ofFn (b.write off (s ++ [0]))).drop off = s ++ 0 :: rest := by
  refine ⟨(List.ofFn b).drop (off + (s ++ [0]).length), ?_⟩
  rw [drop_write b h, List.append_assoc, List.singleton_append]

theorem cstr_write (b : Buffer UInt8 n) {s : List UInt8} (h : 0 + (s ++ [0]).length ≤ n) :
    cstr (List.ofFn (b.write 0 (s ++ [0]))) = cstr s := by
  obtain ⟨rest, hstored⟩ := drop_write_string b h
  rw [List.drop_zero] at hstored
  rw [hstored, cstr_append_nul]

theorem zero_not_mem_cstr (s : List UInt8) : 0 ∉ cstr s := by
  intro h
  simpa using List.mem_takeWhile_imp h

theorem snprintf_length (size : Nat) (s : List UInt8) :
    (snprintf size s).length = min (size - 1) s.length + 1 := by
  simp [snprintf]

theorem snprintf_of_lt {size : Nat} {s : List UInt8} (h : s.length < size) :
    snprintf size s = s ++ [0] := by
  rw [snprintf, List.take_of_length_le (by omega)]

/-- A string that was stored with its terminator has its length. -/
theorem strlen_ok {b : Buffer UInt8 n} {s rest : List UInt8} (hs : 0 ∉ s)
    (h : (List.ofFn b).drop off = s ++ 0 :: rest) : strlen b off = .ok s.length := by
  rw [strlen, h, if_pos (by simp), cstr_append hs]

end contents

end access
