-- A queue of entries with deadlines. A pass takes entries from the front as long as
-- their deadline is over, so it finds all of them only in a queue that is in order.
import Mathlib

namespace deadlines

variable {α κ : Type*}

/-! ## The front of a list, and all of it that fits -/

/-- Whatever stands before an element that fits, fits. -/
def Ahead (p : α → Bool) (l : List α) : Prop := l.Pairwise fun a b => p b = true → p a = true

theorem Ahead.of_cons {p : α → Bool} {a : α} {l : List α} (h : Ahead p (a :: l)) : Ahead p l :=
  (List.pairwise_cons.mp h).2

/-- An element that does not fit has none behind it that fits. -/
theorem Ahead.filter_eq_nil {p : α → Bool} {a : α} {l : List α} (h : Ahead p (a :: l))
    (ha : p a = false) : l.filter p = [] := by
  apply List.filter_eq_nil_iff.mpr
  intro b hb hpb
  have hpa := (List.pairwise_cons.mp h).1 b hb hpb
  rw [ha] at hpa
  cases hpa

theorem takeWhile_eq_filter_iff (p : α → Bool) (l : List α) :
    l.takeWhile p = l.filter p ↔ Ahead p l := by
  induction l with
  | nil => simp [Ahead]
  | cons a l ih =>
    rw [List.takeWhile_cons, List.filter_cons]
    cases ha : p a with
    | true =>
      simp only [if_true, List.cons.injEq, true_and, ih]
      refine ⟨?_, Ahead.of_cons⟩
      intro h
      exact List.pairwise_cons.mpr ⟨fun _ _ _ => ha, h⟩
    | false =>
      simp only [Bool.false_eq_true, if_false]
      refine ⟨?_, fun h => (h.filter_eq_nil ha).symm⟩
      intro h
      have hnone := List.filter_eq_nil_iff.mp h.symm
      have hlater : Ahead p l := by
        apply List.pairwise_of_forall_mem_list
        intro b _ c hc hpc
        exact absurd hpc (hnone c hc)
      exact List.pairwise_cons.mpr ⟨fun b hb hpb => absurd hpb (hnone b hb), hlater⟩

theorem Ahead.dropWhile_eq_filter {p : α → Bool} {l : List α} (h : Ahead p l) :
    l.dropWhile p = l.filter fun a => !p a := by
  induction l with
  | nil => rfl
  | cons a l ih =>
    cases ha : p a with
    | true =>
      rw [List.dropWhile_cons_of_pos ha, List.filter_cons_of_neg (by simp [ha])]
      exact ih h.of_cons
    | false =>
      rw [List.dropWhile_cons_of_neg (by simp [ha]), List.filter_cons_of_pos (by simp [ha])]
      congr 1
      symm
      apply List.filter_eq_self.mpr
      intro b hb
      have hnone := List.filter_eq_nil_iff.mp (h.filter_eq_nil ha) b hb
      simpa using hnone

/-! ## A pass at any time from now on -/

variable [LinearOrder κ]

/-- The first entry is due no later than the second, or it is due already. -/
def Due (deadline : α → κ) (now : κ) (a b : α) : Prop :=
  deadline a ≤ deadline b ∨ deadline a ≤ now

theorem ahead_iff_due (deadline : α → κ) (now : κ) (l : List α) :
    (∀ t, now ≤ t → Ahead (fun a => decide (deadline a ≤ t)) l) ↔
      l.Pairwise (Due deadline now) := by
  unfold Ahead
  simp only [decide_eq_true_eq]
  refine ⟨?_, ?_⟩
  · intro h
    rw [List.pairwise_iff_getElem]
    intro i j hi hj hij
    -- the second entry is due at the later of its deadline and now
    have hlate := List.pairwise_iff_getElem.mp
      (h (max now (deadline l[j])) (le_max_left _ _)) i j hi hj hij (le_max_right _ _)
    rcases le_max_iff.mp hlate with hnow | hdead
    · exact Or.inr hnow
    · exact Or.inl hdead
  · intro h t ht
    apply h.imp
    intro a b hab hb
    rcases hab with hdead | hnow
    · exact hdead.trans hb
    · exact hnow.trans ht

/-- The pass at the time `t` takes all the entries that are over, and only these, exactly
when they stand ahead. -/
theorem pass_exact_at_iff (deadline : α → κ) (t : κ) (l : List α) :
    (l.takeWhile (fun a => decide (deadline a ≤ t)) = l.filter (fun a => decide (deadline a ≤ t)) ∧
      l.dropWhile (fun a => decide (deadline a ≤ t)) = l.filter fun a => decide (t < deadline a)) ↔
      Ahead (fun a => decide (deadline a ≤ t)) l := by
  refine ⟨fun h => (takeWhile_eq_filter_iff _ _).mp h.1, fun h => ?_⟩
  refine ⟨(takeWhile_eq_filter_iff _ _).mpr h, ?_⟩
  rw [h.dropWhile_eq_filter]
  simp only [← decide_not, not_le]

end deadlines
