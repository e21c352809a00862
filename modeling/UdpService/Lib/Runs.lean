-- Runs of a system whose actions may be disabled. A law that one action
-- keeps is a law of every state that a run reaches.
import Mathlib

namespace runs

variable {σ α : Type*}

/-- The state after the actions, or `none` when one of them is disabled. -/
def run (step : σ → α → Option σ) : σ → List α → Option σ
  | s, [] => some s
  | s, a :: as => (step s a).bind fun s' => run step s' as

/-- Every action of the run is taken in a state that meets the condition. -/
def Guarded (step : σ → α → Option σ) (ok : σ → α → Prop) : σ → List α → Prop
  | _, [] => True
  | s, a :: as => ok s a ∧ match step s a with
    | some s' => Guarded step ok s' as
    | none => True

/-- What the actions of a run put out, one after the other. -/
def outputs {β : Type*} (step : σ → α → Option σ) (out : σ → α → List β) : σ → List α → List β
  | _, [] => []
  | s, a :: as => out s a ++ match step s a with
    | some s' => outputs step out s' as
    | none => []

/-- A state that some run reaches. -/
def Reachable (step : σ → α → Option σ) (s u : σ) : Prop := ∃ as, run step s as = some u

instance decidableGuarded (step : σ → α → Option σ) (ok : σ → α → Prop)
    [∀ s a, Decidable (ok s a)] : ∀ s as, Decidable (Guarded step ok s as)
  | _, [] => isTrue trivial
  | s, a :: as =>
    match h : step s a with
    | some s' =>
      have := decidableGuarded step ok s' as
      decidable_of_iff (ok s a ∧ Guarded step ok s' as) (by simp [Guarded, h])
    | none => decidable_of_iff (ok s a) (by simp [Guarded, h])

variable {step : σ → α → Option σ} {ok : σ → α → Prop} {s u : σ} {as : List α}

theorem run_cons_eq_some {a : α} :
    run step s (a :: as) = some u ↔ ∃ s', step s a = some s' ∧ run step s' as = some u := by
  simp [run, Option.bind_eq_some_iff]

theorem run_append (s : σ) (as bs : List α) :
    run step s (as ++ bs) = (run step s as).bind fun s' => run step s' bs := by
  induction as generalizing s with
  | nil => rfl
  | cons a as ih =>
    simp only [List.cons_append, run]
    cases step s a with
    | none => rfl
    | some s' => simpa using ih s'

theorem run_snoc {a : α} (h : run step s as = some u) :
    run step s (as ++ [a]) = step u a := by
  rw [run_append, h]
  simp [run]

theorem outputs_cons {β : Type*} {out : σ → α → List β} {a : α} {v : σ} (ha : step s a = some v) :
    outputs step out s (a :: as) = out s a ++ outputs step out v as := by
  rw [outputs, ha]

theorem Reachable.refl (s : σ) : Reachable step s s := ⟨[], rfl⟩

theorem Reachable.next {a : α} {v : σ} (h : Reachable step s u) (ha : step u a = some v) :
    Reachable step s v := by
  obtain ⟨as, has⟩ := h
  exact ⟨as ++ [a], by rw [run_snoc has, ha]⟩

theorem Reachable.trans {v : σ} (h : Reachable step s u) (h' : Reachable step u v) :
    Reachable step s v := by
  obtain ⟨as, has⟩ := h
  obtain ⟨bs, hbs⟩ := h'
  exact ⟨as ++ bs, by rw [run_append, has, Option.bind_some, hbs]⟩

/-- A run of a system that takes some of the actions only is a run. -/
theorem Reachable.lift {step' : σ → α → Option σ} {P : α → Prop}
    (hstep : ∀ s a s', step' s a = some s' → step s a = some s' ∧ P a)
    (h : Reachable step' s u) : ∃ as, run step s as = some u ∧ ∀ a ∈ as, P a := by
  obtain ⟨as, hr⟩ := h
  refine ⟨as, ?_⟩
  induction as generalizing s with
  | nil => exact ⟨hr, fun a ha => by cases ha⟩
  | cons a as ih =>
    obtain ⟨s', ha, hr'⟩ := run_cons_eq_some.mp hr
    obtain ⟨hs, hP⟩ := hstep s a s' ha
    obtain ⟨hrun, hall⟩ := ih hr'
    exact ⟨run_cons_eq_some.mpr ⟨s', hs, hrun⟩, List.forall_mem_cons.mpr ⟨hP, hall⟩⟩

/-- A law that one action keeps, under the condition, holds at the end of
every run whose actions all meet the condition. -/
theorem run_invariant_guarded {I : σ → Prop}
    (hstep : ∀ s a s', I s → ok s a → step s a = some s' → I s')
    (h0 : I s) (hg : Guarded step ok s as) (hr : run step s as = some u) : I u := by
  induction as generalizing s with
  | nil =>
    cases hr
    exact h0
  | cons a as ih =>
    obtain ⟨s', ha, hr'⟩ := run_cons_eq_some.mp hr
    obtain ⟨hok, hg'⟩ := hg
    rw [ha] at hg'
    exact ih (hstep s a s' h0 hok ha) hg' hr'

/-- A law that each action of a run keeps holds at its end. -/
theorem run_invariant_mem {I : σ → Prop}
    (hstep : ∀ s, ∀ a ∈ as, ∀ s', I s → step s a = some s' → I s')
    (h0 : I s) (hr : run step s as = some u) : I u := by
  induction as generalizing s with
  | nil =>
    cases hr
    exact h0
  | cons a as ih =>
    obtain ⟨s', ha, hr'⟩ := run_cons_eq_some.mp hr
    exact ih (fun s b hb => hstep s b (List.mem_cons_of_mem a hb))
      (hstep s a List.mem_cons_self s' h0 ha) hr'

/-- A law that one action keeps holds at the end of every run. -/
theorem run_invariant {I : σ → Prop} (hstep : ∀ s a s', I s → step s a = some s' → I s')
    (h0 : I s) (hr : run step s as = some u) : I u :=
  run_invariant_mem (fun s a _ => hstep s a) h0 hr

/-- A run is guarded when every action meets the condition in the state that the
actions before it reach. -/
theorem guarded_iff_getElem? : Guarded step ok s as ↔
    ∀ n a v, as[n]? = some a → run step s (as.take n) = some v → ok v a := by
  induction as generalizing s with
  | nil => simp [Guarded]
  | cons b as ih =>
    refine ⟨?_, ?_⟩
    · rintro ⟨hb, hrest⟩ n a v hn hv
      rcases n with _ | n
      · cases hv
        obtain rfl : b = a := by simpa using hn
        exact hb
      · rw [List.take_succ_cons] at hv
        obtain ⟨s', hs', hv'⟩ := run_cons_eq_some.mp hv
        rw [hs'] at hrest
        exact ih.mp hrest n a v (by simpa using hn) hv'
    · intro h
      refine ⟨h 0 b s rfl rfl, ?_⟩
      rcases hs' : step s b with _ | s'
      · trivial
      · apply ih.mpr
        intro n a v hn hv
        exact h (n + 1) a v (by simpa using hn)
          (by rw [List.take_succ_cons, run_cons_eq_some]; exact ⟨s', hs', hv⟩)

/-- Two guarded runs, one after the other. -/
theorem Guarded.append {bs : List α} (h : Guarded step ok s as) (hr : run step s as = some u)
    (h' : Guarded step ok u bs) : Guarded step ok s (as ++ bs) := by
  induction as generalizing s with
  | nil =>
    cases hr
    exact h'
  | cons a as ih =>
    obtain ⟨s', ha, hr'⟩ := run_cons_eq_some.mp hr
    obtain ⟨hok, hrest⟩ := h
    rw [ha] at hrest
    refine ⟨hok, ?_⟩
    rw [ha]
    exact ih hrest hr'

theorem Guarded.mono {ok' : σ → α → Prop} (hok : ∀ s a, ok s a → ok' s a)
    (h : Guarded step ok s as) : Guarded step ok' s as :=
  guarded_iff_getElem?.mpr fun n a v hn hv => hok v a (guarded_iff_getElem?.mp h n a v hn hv)

theorem run_take (hr : run step s as = some u) (n : Nat) :
    ∃ v, run step s (as.take n) = some v := by
  rw [← List.take_append_drop n as, run_append] at hr
  obtain ⟨v, hv, -⟩ := Option.bind_eq_some_iff.mp hr
  exact ⟨v, hv⟩

/-- A condition on what a state remembers of the actions before it is a condition
on the actions alone. -/
theorem guarded_iff_history {τ : Type*} {memory : σ → τ} {past : List α → τ} {P : τ → α → Prop}
    (hpast : ∀ n v, run step s (as.take n) = some v → memory v = past (as.take n))
    (hr : run step s as = some u) : Guarded step (fun v a => P (memory v) a) s as ↔
      ∀ n a, as[n]? = some a → P (past (as.take n)) a := by
  rw [guarded_iff_getElem?]
  refine ⟨?_, ?_⟩
  · intro h n a hn
    obtain ⟨v, hv⟩ := run_take hr n
    rw [← hpast n v hv]
    exact h n a v hn hv
  · intro h n a v hn hv
    rw [hpast n v hv]
    exact h n a hn

/-- Where a law and the condition enable every action of the run, and the law is
kept, the run goes through. -/
theorem run_total_guarded {I : σ → Prop}
    (hstep : ∀ s, ∀ a ∈ as, I s → ok s a → ∃ s', step s a = some s' ∧ I s') (h0 : I s)
    (hg : Guarded step ok s as) : ∃ u, run step s as = some u ∧ I u := by
  induction as generalizing s with
  | nil => exact ⟨s, rfl, h0⟩
  | cons a as ih =>
    obtain ⟨hok, hg'⟩ := hg
    obtain ⟨s', ha, hs'⟩ := hstep s a List.mem_cons_self h0 hok
    rw [ha] at hg'
    obtain ⟨u, hu, hI⟩ := ih (fun s b hb => hstep s b (List.mem_cons_of_mem a hb)) hs' hg'
    exact ⟨u, run_cons_eq_some.mpr ⟨s', ha, hu⟩, hI⟩

theorem last_set_cons {β : Type*} (sets : α → Option β) (a : α) (as : List α) (b : β) :
    ((a :: as).filterMap sets).getLast?.getD b =
      (as.filterMap sets).getLast?.getD ((sets a).getD b) := by
  cases hset : sets a with
  | none => rw [List.filterMap_cons_none hset, Option.getD_none]
  | some c =>
    rw [List.filterMap_cons_some hset, List.getLast?_cons, Option.getD_some, Option.getD_some]

/-- A register that some actions set, and no other action changes, holds what was
set last. -/
theorem run_register {β : Type*} (reg : σ → β) {sets : α → Option β}
    (hstep : ∀ s a s', step s a = some s' → reg s' = (sets a).getD (reg s))
    (hr : run step s as = some u) : reg u = (as.filterMap sets).getLast?.getD (reg s) := by
  induction as generalizing s with
  | nil =>
    cases hr
    rfl
  | cons a as ih =>
    obtain ⟨s', ha, hr'⟩ := run_cons_eq_some.mp hr
    rw [ih hr', hstep s a s' ha, last_set_cons]

/-- Where the run is cut, there is a state. -/
theorem run_split {pre post : List α} {a : α} (hr : run step s (pre ++ a :: post) = some u) :
    ∃ v v', run step s pre = some v ∧ step v a = some v' ∧ run step v' post = some u := by
  rw [run_append] at hr
  obtain ⟨v, hv, hrest⟩ := Option.bind_eq_some_iff.mp hr
  obtain ⟨v', ha, hpost⟩ := run_cons_eq_some.mp hrest
  exact ⟨v, v', hv, ha, hpost⟩

theorem run_total {I : σ → Prop}
    (hstep : ∀ s, ∀ a ∈ as, I s → ∃ s', step s a = some s' ∧ I s') (h0 : I s) :
    ∃ u, run step s as = some u ∧ I u :=
  have htrue : Guarded step (fun _ _ => True) s as :=
    guarded_iff_getElem?.mpr fun _ _ _ _ _ => trivial
  run_total_guarded (fun s a ha h _ => hstep s a ha h) h0 htrue

/-- Where a law holds, two conditions come to the same thing on every action of
the run, and the law is kept while they are met: the run meets both or neither. -/
theorem guarded_congr {I : σ → Prop} {ok' : σ → α → Prop}
    (hsame : ∀ s, ∀ a ∈ as, ∀ s', I s → step s a = some s' → (ok s a ↔ ok' s a))
    (hstep : ∀ s, ∀ a ∈ as, ∀ s', I s → ok' s a → step s a = some s' → I s')
    (h0 : I s) (hr : run step s as = some u) : Guarded step ok s as ↔ Guarded step ok' s as := by
  induction as generalizing s with
  | nil => exact Iff.rfl
  | cons a as ih =>
    obtain ⟨s', ha, hr'⟩ := run_cons_eq_some.mp hr
    simp only [Guarded, ha]
    rw [hsame s a List.mem_cons_self s' h0 ha]
    apply and_congr_right
    intro hok
    exact ih (fun s b hb => hsame s b (List.mem_cons_of_mem a hb))
      (fun s b hb => hstep s b (List.mem_cons_of_mem a hb))
      (hstep s a List.mem_cons_self s' h0 hok ha) hr'

/-- The same where the two conditions agree on actions that are not enabled, too. -/
theorem guarded_congr_all {I : σ → Prop} {ok' : σ → α → Prop}
    (hsame : ∀ s, ∀ a ∈ as, I s → (ok s a ↔ ok' s a))
    (hstep : ∀ s, ∀ a ∈ as, ∀ s', I s → ok' s a → step s a = some s' → I s')
    (h0 : I s) : Guarded step ok s as ↔ Guarded step ok' s as := by
  induction as generalizing s with
  | nil => exact Iff.rfl
  | cons a as ih =>
    simp only [Guarded]
    rw [hsame s a List.mem_cons_self h0]
    apply and_congr_right
    intro hok
    rcases ha : step s a with _ | s'
    · exact Iff.rfl
    · exact ih (fun s b hb => hsame s b (List.mem_cons_of_mem a hb))
        (fun s b hb => hstep s b (List.mem_cons_of_mem a hb))
        (hstep s a List.mem_cons_self s' h0 hok ha)

/-- What a state remembers besides does not matter to a condition on the rest of it. -/
theorem guarded_proj {τ : Type*} {step' : τ → α → Option τ} (f : τ → σ)
    (hstep : ∀ t a, (step' t a).map f = step (f t) a) {t : τ} :
    Guarded step' (fun t a => ok (f t) a) t as ↔ Guarded step ok (f t) as := by
  induction as generalizing t with
  | nil => exact Iff.rfl
  | cons a as ih =>
    simp only [Guarded, ← hstep]
    apply and_congr_right
    intro _
    cases step' t a with
    | none => exact Iff.rfl
    | some t' => exact ih

theorem Reachable.invariant {I : σ → Prop} (hstep : ∀ s a s', I s → step s a = some s' → I s')
    (h0 : I s) (h : Reachable step s u) : I u := by
  obtain ⟨as, hr⟩ := h
  exact run_invariant hstep h0 hr

end runs
