-- Lists cut into blocks of `m` elements, and buffers of a fixed size that the
-- blocks are written into. A buffer that got every block of a list holds the
-- list, in whatever order the blocks came.
import Mathlib

namespace blocks

variable {α : Type*}

/-! ## Blocks of a list -/

/-- The number of blocks of `m` elements that cover `n` elements. -/
def count (m n : Nat) : Nat := n / m + if 0 < n % m then 1 else 0

/-- Block `k` of a list. The last block may be shorter than `m`. -/
def block (m : Nat) (l : List α) (k : Nat) : List α := (l.drop (m * k)).take m

theorem lt_count_iff {m : Nat} (hm : 0 < m) (n k : Nat) : k < count m n ↔ m * k < n := by
  unfold count
  have hd := Nat.div_add_mod n m
  have hr := Nat.mod_lt n hm
  constructor
  · intro h
    rcases Nat.lt_or_ge k (n / m) with hk | hk
    · have := Nat.mul_le_mul_left m (Nat.succ_le_of_lt hk)
      rw [Nat.mul_succ] at this
      omega
    · split at h
      · have hk' : k = n / m := by omega
        subst hk'
        omega
      · omega
  · intro h
    by_contra hc
    have hk : n / m ≤ k := by split at hc <;> omega
    have := Nat.mul_le_mul_left m hk
    split at hc
    · have h1 := Nat.mul_le_mul_left m (by omega : n / m + 1 ≤ k)
      rw [Nat.mul_succ] at h1
      omega
    · omega

theorem count_le {m n b : Nat} (hm : 0 < m) (h : n ≤ m * b) : count m n ≤ b := by
  by_contra hc
  have := (lt_count_iff hm n b).mp (by omega)
  omega

@[simp] theorem count_zero (m : Nat) : count m 0 = 0 := by simp [count]

@[simp] theorem block_length (m : Nat) (l : List α) (k : Nat) :
    (block m l k).length = min m (l.length - m * k) := by
  simp [block]

theorem block_length_le (m : Nat) (l : List α) (k : Nat) : (block m l k).length ≤ m := by
  simp

theorem block_getElem? (m : Nat) (l : List α) (k i : Nat) :
    (block m l k)[i]? = if i < m then l[m * k + i]? else none := by
  simp [block, List.getElem?_take, List.getElem?_drop]

/-- The first blocks, one after the other, are the front of the list. -/
theorem sum_block_length (m : Nat) (l : List α) (n : Nat) :
    ((List.range n).map fun k => (block m l k).length).sum = min (m * n) l.length := by
  induction n with
  | zero => simp
  | succ n ih =>
    rw [List.range_succ, List.map_append, List.sum_append, ih]
    simp only [List.map_cons, List.map_nil, List.sum_cons, List.sum_nil, block_length]
    rw [Nat.mul_succ]
    omega

theorem flatMap_block (m : Nat) (l : List α) (n : Nat) :
    (List.range n).flatMap (block m l) = l.take (m * n) := by
  induction n with
  | zero => simp
  | succ n ih =>
    rw [List.range_succ, List.flatMap_append, ih, Nat.mul_succ, List.take_add]
    simp [block]

theorem sum_block_length_le (m : Nat) (l : List α) (ks : List Nat) :
    (ks.map fun k => (block m l k).length).sum ≤ m * ks.length := by
  induction ks with
  | nil => simp
  | cons k ks ih =>
    have := block_length_le m l k
    simp only [List.map_cons, List.sum_cons, List.length_cons, Nat.mul_succ]
    omega

/-! ## Block numbers that came -/

/-- As many different block numbers as there are blocks are all the numbers. -/
theorem perm_range_of_nodup {ks : List Nat} {n : Nat} (hk : ∀ k ∈ ks, k < n) (hd : ks.Nodup)
    (hn : n ≤ ks.length) : ks.Perm (List.range n) := by
  have hs : ks.Subperm (List.range n) :=
    List.subperm_of_subset hd fun k h => List.mem_range.mpr (hk k h)
  exact hs.perm_of_length_le (by simpa using hn)

/-- The lengths of all the blocks add up to the length of the list, in any order. -/
theorem sum_of_all {m : Nat} (hm : 0 < m) (l : List α) {ks : List Nat}
    (h : ks.Perm (List.range (count m l.length))) :
    (ks.map fun k => (block m l k).length).sum = l.length := by
  rw [(h.map _).sum_eq, sum_block_length]
  have := (lt_count_iff hm l.length (count m l.length)).not.mp (Nat.lt_irrefl _)
  omega

/-! ## Buffers -/

/-- A buffer of `n` elements. -/
abbrev Buffer (α : Type*) (n : Nat) := Fin n → α

/-- The first `len` elements of a buffer. -/
def Buffer.bytes {n : Nat} (b : Buffer α n) (len : Nat) (h : len ≤ n) : List α :=
  List.ofFn fun i : Fin len => b (i.castLE h)

/-- The buffer with the elements of `l` copied in from offset `off` on. -/
def Buffer.write {n : Nat} (b : Buffer α n) (off : Nat) (l : List α) : Buffer α n :=
  fun j => if off ≤ j.val then l[j.val - off]?.getD (b j) else b j

/-- The elements of `l`, and `z` after them. -/
def Buffer.padded (n : Nat) (z : α) (l : List α) : Buffer α n := fun j => l[j.val]?.getD z

@[simp] theorem Buffer.bytes_length {n : Nat} (b : Buffer α n) (len : Nat) (h : len ≤ n) :
    (b.bytes len h).length = len := by
  simp [Buffer.bytes]

theorem Buffer.bytes_eq {n : Nat} (b : Buffer α n) (l : List α) (h : l.length ≤ n)
    (hb : ∀ (i : Nat) (hi : i < l.length), b ⟨i, by omega⟩ = l[i]) :
    b.bytes l.length h = l := by
  apply List.ext_getElem
  · simp
  · intro i h1 h2
    simp only [Buffer.bytes, List.getElem_ofFn]
    exact hb i h2

theorem Buffer.bytes_padded {n : Nat} (z : α) (l : List α) (h : l.length ≤ n) :
    (Buffer.padded n z l).bytes l.length h = l := by
  apply Buffer.bytes_eq
  intro i hi
  simp [Buffer.padded, hi]

/-- What is copied to the front of a buffer stands there. -/
theorem Buffer.take_write {n : Nat} (b : Buffer α n) {l : List α} (h : l.length ≤ n) :
    (List.ofFn (b.write 0 l)).take l.length = l := by
  apply List.ext_getElem
  · simpa using h
  · intro i h1 h2
    simp only [List.getElem_take, List.getElem_ofFn, Buffer.write, Nat.zero_le, if_true,
      Nat.sub_zero]
    exact Option.getD_eq_iff.mpr (.inl (List.getElem?_eq_getElem h2))

/-! ## A buffer that gets the blocks of a list -/

/-- Every element of the blocks `ks` of `l` stands in its place. -/
def Holds {n : Nat} (m : Nat) (l : List α) (b : Buffer α n) (ks : List Nat) : Prop :=
  ∀ (i : Nat) (hn : i < n) (x : α), i / m ∈ ks → l[i]? = some x → b ⟨i, hn⟩ = x

theorem holds_nil {n : Nat} (m : Nat) (l : List α) (b : Buffer α n) : Holds m l b [] := by
  intro i _ x hi
  cases hi

/-- A block written in its place is held, and no other block is touched. -/
theorem holds_write {n m : Nat} (hm : 0 < m) {l : List α} {b : Buffer α n} {ks : List Nat}
    (h : Holds m l b ks) (k : Nat) : Holds m l (b.write (k * m) (block m l k)) (ks ++ [k]) := by
  intro i hn x hi hx
  unfold Buffer.write
  have hd := Nat.div_add_mod i m
  have hr := Nat.mod_lt i hm
  by_cases hk : i / m = k
  · have hcomm : k * m = m * (i / m) := by rw [hk, Nat.mul_comm]
    have hsub : i - k * m = i % m := by omega
    have hblock : (block m l k)[i % m]? = some x := by
      rw [block_getElem?, if_pos hr, ← hk, hd]
      exact hx
    simp only [hsub, hblock, Option.getD_some]
    rw [if_pos (by omega)]
  · have hold : b ⟨i, hn⟩ = x := by
      apply h i hn x _ hx
      simpa [hk] using hi
    split
    · rename_i hle
      have hge : m ≤ i - k * m := by
        have h1 : k ≤ i / m := (Nat.le_div_iff_mul_le hm).mpr hle
        have h2 : (k + 1) * m ≤ i := (Nat.le_div_iff_mul_le hm).mp (by omega)
        rw [Nat.succ_mul] at h2
        omega
      have hnone : (block m l k)[i - k * m]? = none := by
        rw [block_getElem?, if_neg (by omega)]
      simp only [hnone, Option.getD_none]
      exact hold
    · exact hold

/-- A block that is held stands in its place. -/
theorem block_of_holds {n m : Nat} {l : List α} {b : Buffer α n} {ks : List Nat}
    (h : Holds m l b ks) (hl : l.length ≤ n) {k : Nat} (hk : k ∈ ks) :
    ((List.ofFn b).drop (k * m)).take (block m l k).length = block m l k := by
  have hlen : (block m l k).length = min m (l.length - k * m) := by
    rw [block_length, Nat.mul_comm]
  apply List.ext_getElem
  · rw [List.length_take, List.length_drop, List.length_ofFn]
    omega
  · intro i h1 h2
    have him : i < m := by omega
    have hplace : (k * m + i) / m ∈ ks := by
      rw [Nat.mul_comm, Nat.mul_add_div (by omega), Nat.div_eq_of_lt him, Nat.add_zero]
      exact hk
    simp only [List.getElem_take, List.getElem_drop, List.getElem_ofFn]
    apply h _ _ _ hplace
    have hget := block_getElem? m l k i
    rw [if_pos him, List.getElem?_eq_getElem h2, Nat.mul_comm] at hget
    exact hget.symm

/-- A buffer that holds every block of a list starts with the list. -/
theorem bytes_of_holds {n m : Nat} (hm : 0 < m) {l : List α} {b : Buffer α n} {ks : List Nat}
    (h : Holds m l b ks) (hl : l.length ≤ n) (hall : ∀ k < count m l.length, k ∈ ks) :
    b.bytes l.length hl = l := by
  apply Buffer.bytes_eq
  intro i hi
  apply h i (by omega) l[i]
  · apply hall
    rw [lt_count_iff hm]
    have := Nat.div_add_mod i m
    omega
  · exact List.getElem?_eq_getElem hi

end blocks
