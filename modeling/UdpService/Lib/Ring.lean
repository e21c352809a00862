-- Positions in a ring of a power of two of cells, kept in machine words that
-- are masked and never divided. Each position belongs to a counter that only
-- runs up, and the words tell how far two counters are apart.
import Mathlib

namespace ring

variable {w : Nat} {size p q : BitVec w} {k m n : Nat}

/-- The word stands where a counter that reached `n` stands in a ring of `2 ^ k`
cells. -/
def Stands (k : Nat) (p : BitVec w) (n : Nat) : Prop := p.toNat % 2 ^ k = n % 2 ^ k

theorem toNat_one : (1 : BitVec w).toNat = 1 % 2 ^ w := rfl

/-- To mask with one less than the size of the ring is to reduce modulo the
size. -/
theorem toNat_and_pred (hs : size.toNat = 2 ^ k) (p : BitVec w) :
    (p &&& (size - 1)).toNat = p.toNat % 2 ^ k := by
  have hlt : 2 ^ k < 2 ^ w := hs ▸ size.isLt
  have hpos : 0 < 2 ^ k := Nat.two_pow_pos k
  have hone : (1 : BitVec w).toNat = 1 := by
    rw [toNat_one]
    exact Nat.mod_eq_of_lt (by omega)
  have hpred : (size - 1).toNat = 2 ^ k - 1 := by
    rw [BitVec.toNat_sub, hs, hone, show 2 ^ w - 1 + 2 ^ k = 2 ^ k - 1 + 2 ^ w by omega,
      Nat.add_mod_right]
    exact Nat.mod_eq_of_lt (by omega)
  rw [BitVec.toNat_and, hpred, Nat.and_two_pow_sub_one_eq_mod]

theorem pow_dvd (hs : size.toNat = 2 ^ k) : 2 ^ k ∣ 2 ^ w :=
  Nat.pow_dvd_pow 2 (Nat.le_of_lt ((Nat.pow_lt_pow_iff_right (by omega)).mp (hs ▸ size.isLt)))

theorem Stands.add_size (h : Stands k p n) : Stands k p (n + 2 ^ k) := by
  unfold Stands at h ⊢
  rw [h, Nat.add_mod_right]

/-- One turn, before the mask. -/
theorem Stands.succ (hs : size.toNat = 2 ^ k) (h : Stands k p n) : Stands k (p + 1) (n + 1) := by
  have hdvd := pow_dvd hs
  unfold Stands at h ⊢
  rw [BitVec.toNat_add, Nat.mod_mod_of_dvd _ hdvd, toNat_one, Nat.add_mod p.toNat,
    Nat.mod_mod_of_dvd _ hdvd, h, ← Nat.add_mod]

theorem Stands.mask (hs : size.toNat = 2 ^ k) (h : Stands k p n) :
    (p &&& (size - 1)).toNat = n % 2 ^ k := by
  rw [toNat_and_pred hs]
  exact h

/-- The masked difference of two positions is the difference of the counters. -/
theorem Stands.sub_mask (hs : size.toNat = 2 ^ k) (hp : Stands k p m) (hq : Stands k q n)
    (hle : n ≤ m) : ((p - q) &&& (size - 1)).toNat = (m - n) % 2 ^ k := by
  have hdvd := pow_dvd hs
  have hq' := q.isLt
  unfold Stands at hp hq
  rw [toNat_and_pred hs, BitVec.toNat_sub, Nat.mod_mod_of_dvd _ hdvd]
  have hsum : 2 ^ w - q.toNat + p.toNat + n ≡ m - n + n [MOD 2 ^ k] := by
    have hback : 2 ^ w - q.toNat + p.toNat + q.toNat = p.toNat + 2 ^ w := by omega
    calc 2 ^ w - q.toNat + p.toNat + n
        ≡ 2 ^ w - q.toNat + p.toNat + q.toNat [MOD 2 ^ k] := Nat.ModEq.add_left _ hq.symm
      _ ≡ p.toNat [MOD 2 ^ k] := by
          rw [hback]
          exact Nat.ModEq.add_left p.toNat ((Nat.modEq_zero_iff_dvd).mpr hdvd)
      _ ≡ m [MOD 2 ^ k] := hp
      _ ≡ m - n + n [MOD 2 ^ k] := by rw [Nat.sub_add_cancel hle]
  exact Nat.ModEq.add_right_cancel' n hsum

/-- How far the counter of `p` is ahead of that of `q`, when it is less than
once around. -/
theorem Stands.sub_mask_of_lt (hs : size.toNat = 2 ^ k) (hp : Stands k p m) (hq : Stands k q n)
    (hle : n ≤ m) (hlt : m < n + 2 ^ k) : ((p - q) &&& (size - 1)).toNat = m - n := by
  rw [hp.sub_mask hs hq hle]
  exact Nat.mod_eq_of_lt (by omega)

/-- Less than once around, different counters stand in different cells. -/
theorem mod_inj {i j : Nat} (hi : n ≤ i) (hj : n ≤ j) (hi' : i < n + 2 ^ k) (hj' : j < n + 2 ^ k)
    (h : i % 2 ^ k = j % 2 ^ k) : i = j := by
  have hdvd : i ≤ j → j - i = 0 := fun hle =>
    Nat.eq_zero_of_dvd_of_lt ((Nat.modEq_iff_dvd' hle).mp h) (by omega)
  have hdvd' : j ≤ i → i - j = 0 := fun hle =>
    Nat.eq_zero_of_dvd_of_lt ((Nat.modEq_iff_dvd' hle).mp h.symm) (by omega)
  rcases Nat.le_total i j with hle | hle
  · have := hdvd hle
    omega
  · have := hdvd' hle
    omega

end ring
