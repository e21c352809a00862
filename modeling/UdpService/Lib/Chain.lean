-- Singly linked chains of cells: each cell names the next one, and the last
-- names none. The loops that follow a chain take fuel, and a chain shorter
-- than the fuel is followed to its end.
import Mathlib

namespace chain

variable {ρ : Type*}

/-- From `o`, the `next` fields lead through the cells `l` and then end. -/
def Chain (next : ρ → Option ρ) : Option ρ → List ρ → Prop
  | o, [] => o = none
  | o, p :: ps => o = some p ∧ Chain next (next p) ps

/-- The cells from `o` on, as far as the fuel goes. -/
def walk (next : ρ → Option ρ) : Nat → Option ρ → List ρ
  | _, none => []
  | 0, some _ => []
  | n + 1, some p => p :: walk next n (next p)

/-- The first cell from `o` on that is wanted, or NULL; `none` when the fuel
ends first. -/
def search (next : ρ → Option ρ) (wanted : ρ → Bool) : Nat → Option ρ → Option (Option ρ)
  | _, none => some none
  | 0, some _ => none
  | n + 1, some p => if wanted p then some (some p) else search next wanted n (next p)

variable {next next' : ρ → Option ρ} {o : Option ρ} {l : List ρ}

theorem Chain.head (h : Chain next o l) : o = l.head? := by
  cases l with
  | nil => exact h
  | cons p ps => exact h.1

theorem Chain.congr (h : Chain next o l) (hn : ∀ p ∈ l, next' p = next p) : Chain next' o l := by
  induction l generalizing o with
  | nil => exact h
  | cons p ps ih =>
    refine ⟨h.1, ?_⟩
    rw [hn p (by simp)]
    exact ih h.2 fun q hq => hn q (List.mem_cons_of_mem _ hq)

/-- The cells that a chain leads through are determined. -/
theorem Chain.unique {l' : List ρ} (h : Chain next o l) (h' : Chain next o l') : l = l' := by
  induction l generalizing o l' with
  | nil =>
    cases h
    cases l' with
    | nil => rfl
    | cons q qs => cases h'.1
  | cons p ps ih =>
    obtain ⟨rfl, hps⟩ := h
    cases l' with
    | nil => cases h'
    | cons q qs =>
      obtain ⟨hpq, hqs⟩ := h'
      cases hpq
      rw [ih hps hqs]

/-- A new cell behind the last one. -/
theorem Chain.snoc {p q : ρ} (h : Chain next o (l ++ [q]))
    (hl : ∀ x ∈ l, next' x = next x) (hq : next' q = some p) (hp : next' p = none) :
    Chain next' o (l ++ [q] ++ [p]) := by
  induction l generalizing o with
  | nil => exact ⟨h.1, hq, hp⟩
  | cons x xs ih =>
    refine ⟨h.1, ?_⟩
    rw [hl x (by simp)]
    exact ih h.2 fun y hy => hl y (List.mem_cons_of_mem _ hy)

theorem Chain.walk_eq (h : Chain next o l) {n : Nat} (hn : l.length ≤ n) : walk next n o = l := by
  induction l generalizing o n with
  | nil =>
    cases h
    cases n <;> rfl
  | cons p ps ih =>
    obtain ⟨rfl, h'⟩ := h
    cases n with
    | zero => simp at hn
    | succ n =>
      simp only [walk]
      rw [ih h' (by simpa using hn)]

theorem Chain.search_eq (h : Chain next o l) (wanted : ρ → Bool) {n : Nat} (hn : l.length ≤ n) :
    search next wanted n o = some (l.find? wanted) := by
  induction l generalizing o n with
  | nil =>
    cases h
    cases n <;> rfl
  | cons p ps ih =>
    obtain ⟨rfl, h'⟩ := h
    cases n with
    | zero => simp at hn
    | succ n =>
      simp only [search, List.find?_cons]
      cases wanted p with
      | true => rfl
      | false => simpa using ih h' (by simpa using hn)

/-- Where a search ends, it gives the first cell that is wanted. -/
theorem Chain.search_some (h : Chain next o l) {wanted : ρ → Bool} {n : Nat} {r : Option ρ}
    (hr : search next wanted n o = some r) : r = l.find? wanted := by
  induction l generalizing o n with
  | nil =>
    cases h
    cases n <;> exact (Option.some.inj hr).symm
  | cons p ps ih =>
    obtain ⟨rfl, h'⟩ := h
    cases n with
    | zero => cases hr
    | succ n =>
      rw [search] at hr
      rw [List.find?_cons]
      cases hw : wanted p with
      | true =>
        rw [hw] at hr
        exact (Option.some.inj hr).symm
      | false =>
        rw [hw] at hr
        exact ih h' hr

end chain
