-- The strings of C. A pointer is given by the bytes from it to the end of its object;
-- a string goes up to the first NUL, and a function that would read on past the end of
-- the object has no result.
import Mathlib

namespace cstrings

/-- The string at a pointer. -/
def cstr (s : List UInt8) : List UInt8 := s.takeWhile fun c => c ≠ 0

/-- `strcspn`: how many characters come before one of `reject`, or before the end. -/
def strcspn (s reject : List UInt8) : Nat := (s.takeWhile fun c => c ≠ 0 ∧ c ∉ reject).length

/-- A character that neither separates tokens nor ends the string. -/
def InToken (d c : UInt8) : Prop := c ≠ d ∧ c ≠ 0

instance (d c : UInt8) : Decidable (InToken d c) := inferInstanceAs (Decidable (_ ∧ _))

/-- `strtok_r` with one delimiter: the token or NULL, and the pointer that it saves for
the next call. It stores a NUL over the delimiter behind the token. -/
def strtok_r (d : UInt8) (s : List UInt8) : Option (Option (List UInt8) × List UInt8) :=
  match s.dropWhile fun c => c = d with
  | [] => none
  | c :: cs =>
    if c = 0 then some (none, c :: cs)
    else
      match (c :: cs).dropWhile fun c => InToken d c with
      | [] => none
      | e :: rest =>
        some (some (((c :: cs).takeWhile fun c => InToken d c) ++ 0 :: rest),
          if e = 0 then 0 :: rest else rest)

/-- The places in a string where a token starts: at a character of a token that follows
a delimiter, or nothing. -/
def starts (d : UInt8) : Bool → List UInt8 → List (List UInt8)
  | _, [] => []
  | fresh, c :: s =>
    if c = 0 then []
    else if c = d then starts d true s
    else if fresh then (c :: s) :: starts d false s
    else starts d false s

/-- The token at a place, up to the next delimiter or the end of the string. -/
def token (d : UInt8) (p : List UInt8) : List UInt8 := p.takeWhile fun c => InToken d c

/-- What stands behind the token and the character that ends it. -/
def behind (d : UInt8) (p : List UInt8) : List UInt8 := (p.dropWhile fun c => InToken d c).tail

/-- The place once a NUL ends the token. -/
def cut (d : UInt8) (p : List UInt8) : List UInt8 := token d p ++ 0 :: behind d p

/-! ## Numbers -/

/-- `isspace`. -/
def isspace (c : UInt8) : Bool := c = 32 ∨ 9 ≤ c ∧ c ≤ 13

def isdigit (c : UInt8) : Bool := 48 ≤ c ∧ c ≤ 57

/-- The sign in front of a number, and the rest. -/
def sign : List UInt8 → Bool × List UInt8
  | 45 :: s => (true, s)
  | 43 :: s => (false, s)
  | s => (false, s)

/-- The number that decimal digits stand for. -/
def decimal (digits : List UInt8) : Nat := digits.foldl (fun n c => 10 * n + (c.toNat - 48)) 0

/-- The number that a string starts with, in base 10: whether it is negative, and its
size. -/
def numeral (s : List UInt8) : Bool × Nat :=
  let (negative, s) := sign ((cstr s).dropWhile isspace)
  (negative, decimal (s.takeWhile isdigit))

def ULONG_MAX : Nat := 2 ^ 64 - 1

/-- `strtoul` in base 10, for a `long` of 64 bits. -/
def strtoul (s : List UInt8) : Nat :=
  let (negative, n) := numeral s
  if ULONG_MAX < n then ULONG_MAX else if negative then (2 ^ 64 - n) % 2 ^ 64 else n

/-- `strtol` in base 10. -/
def strtol (s : List UInt8) : Int :=
  let (negative, n) := numeral s
  if negative then max (-2 ^ 63) (-n) else min (2 ^ 63 - 1) n

/-- `atoi`: the `long` cut to an `int`. -/
def atoi (s : List UInt8) : BitVec 32 := BitVec.ofInt 32 (strtol s)

/-! ## Strings that end -/

/-- What is dropped from a string is dropped before the character that stops it. -/
theorem dropWhile_append_stop {p : UInt8 → Bool} {e : UInt8} (he : p e = false)
    (w rest : List UInt8) : (w ++ e :: rest).dropWhile p = w.dropWhile p ++ e :: rest := by
  induction w with
  | nil => exact List.dropWhile_cons_of_neg (by simp [he])
  | cons c w ih =>
    rw [List.cons_append, List.dropWhile_cons, List.dropWhile_cons, ih]
    split <;> rfl

/-- What fits is taken up to a rest that starts with a character that does not, or with
none. -/
theorem span_append {p : UInt8 → Bool} {w rest : List UInt8} (hw : ∀ c ∈ w, p c = true)
    (hrest : ∀ c ∈ rest.head?, p c = false) :
    (w ++ rest).takeWhile p = w ∧ (w ++ rest).dropWhile p = rest := by
  rw [List.takeWhile_append_of_pos hw, List.dropWhile_append_of_pos hw]
  cases rest with
  | nil => exact ⟨List.append_nil w, rfl⟩
  | cons c rest =>
    have hc : p c = false := hrest c rfl
    rw [List.takeWhile_cons_of_neg (by simp [hc]), List.dropWhile_cons_of_neg (by simp [hc])]
    exact ⟨List.append_nil w, rfl⟩

theorem head_append {P : UInt8 → Prop} {w : List UInt8} (rest : List UInt8) (hne : w ≠ [])
    (hw : ∀ c ∈ w, P c) : ∀ c ∈ (w ++ rest).head?, P c := by
  rw [List.head?_append_of_ne_nil _ hne]
  exact fun c hc => hw c (List.mem_of_mem_head? hc)

theorem exists_stop {p : UInt8 → Bool} {s : List UInt8} (hs : ∃ c ∈ s, p c = false) :
    ∃ w e rest, s = w ++ e :: rest ∧ (∀ c ∈ w, p c = true) ∧ p e = false := by
  induction s with
  | nil =>
    obtain ⟨c, hc, -⟩ := hs
    cases hc
  | cons c s ih =>
    cases hc : p c with
    | false => exact ⟨[], c, s, rfl, by simp, hc⟩
    | true =>
      obtain ⟨w, e, rest, rfl, hw, he⟩ := ih (by simpa [hc] using hs)
      refine ⟨c :: w, e, rest, rfl, ?_, he⟩
      exact List.forall_mem_cons.mpr ⟨hc, hw⟩

theorem strcspn_lt {s : List UInt8} (hs : 0 ∈ s) (reject : List UInt8) :
    strcspn s reject < s.length := by
  unfold strcspn
  apply lt_of_le_of_ne (List.takeWhile_sublist _).length_le
  intro hlen
  have hall := List.takeWhile_eq_self_iff.mp ((List.takeWhile_sublist _).eq_of_length hlen)
  exact absurd (hall 0 hs) (by simp)

/-- A string ends at a NUL, or before it. -/
theorem cstr_append_nul (s rest : List UInt8) : cstr (s ++ 0 :: rest) = cstr s := by
  unfold cstr
  induction s with
  | nil => exact List.takeWhile_cons_of_neg (by simp)
  | cons c s ih =>
    rw [List.cons_append, List.takeWhile_cons, List.takeWhile_cons, ih]

theorem cstr_eq_self {s : List UInt8} (h : 0 ∉ s) : cstr s = s := by
  unfold cstr
  rw [List.takeWhile_eq_self_iff]
  intro c hc
  simpa using fun h0 : c = 0 => h (h0 ▸ hc)

theorem cstr_append {tok : List UInt8} (h : 0 ∉ tok) (rest : List UInt8) :
    cstr (tok ++ 0 :: rest) = tok := by
  rw [cstr_append_nul, cstr_eq_self h]

theorem split_of_mem_cstr {d : UInt8} {s : List UInt8} (h : d ∈ cstr s) :
    ∃ tok rest, s = tok ++ d :: rest ∧ ∀ c ∈ tok, InToken d c := by
  obtain ⟨tok, rest, hsplit, hd⟩ := List.eq_append_cons_of_mem h
  refine ⟨tok, rest ++ s.dropWhile (fun c => c ≠ 0), ?_, ?_⟩
  · calc s = cstr s ++ s.dropWhile (fun c => c ≠ 0) := List.takeWhile_append_dropWhile.symm
      _ = tok ++ d :: (rest ++ s.dropWhile fun c => c ≠ 0) := by rw [hsplit]; simp
  · intro c hc
    have hmem : c ∈ cstr s := hsplit ▸ List.mem_append_left _ hc
    have hzero := List.mem_takeWhile_imp hmem
    exact ⟨fun hcd => hd (hcd ▸ hc), by simpa using hzero⟩

theorem inToken_of_isdigit {c d : UInt8} (hd : isdigit d = false) (hc : isdigit c = true) :
    InToken d c := by
  refine ⟨?_, ?_⟩
  · rintro rfl
    rw [hd] at hc
    cases hc
  · rintro rfl
    exact absurd hc (by decide)

theorem atoi_congr {s s' : List UInt8} (h : cstr s = cstr s') : atoi s = atoi s' := by
  unfold atoi strtol numeral
  rw [h]

/-! ## Tokens -/

section tokens

variable {d : UInt8} {pre tok rest : List UInt8}

theorem strtok_r_null (hd : d ≠ 0) (hpre : ∀ c ∈ pre, c = d) (rest : List UInt8) :
    strtok_r d (pre ++ 0 :: rest) = some (none, 0 :: rest) := by
  unfold strtok_r
  rw [List.dropWhile_append_of_pos (by simpa using hpre),
    List.dropWhile_cons_of_neg (by simpa using hd.symm)]
  rfl

/-- The token up to the next delimiter, or up to the end of the string. -/
theorem strtok_r_token {e : UInt8} (hpre : ∀ c ∈ pre, c = d)
    (htok : ∀ c ∈ tok, InToken d c) (hne : tok ≠ []) (he : ¬ InToken d e) (rest : List UInt8) :
    strtok_r d (pre ++ tok ++ e :: rest) =
      some (some (tok ++ 0 :: rest), if e = 0 then 0 :: rest else rest) := by
  obtain ⟨c, cs, rfl⟩ := List.exists_cons_of_ne_nil hne
  obtain ⟨hcd, hc0⟩ := htok c List.mem_cons_self
  unfold strtok_r
  rw [List.append_assoc, List.dropWhile_append_of_pos (by simpa using hpre), List.cons_append,
    List.dropWhile_cons_of_neg (by simpa using hcd)]
  simp only [hc0, if_false]
  rw [← List.cons_append, List.dropWhile_append_of_pos (by simpa using htok),
    List.takeWhile_append_of_pos (by simpa using htok),
    List.dropWhile_cons_of_neg (by simpa using he), List.takeWhile_cons_of_neg (by simpa using he)]
  simp

theorem starts_append_delims (hd : d ≠ 0) (hpre : ∀ c ∈ pre, c = d) (s : List UInt8) :
    starts d true (pre ++ s) = starts d true s := by
  induction pre with
  | nil => rfl
  | cons c pre ih =>
    obtain rfl := hpre c List.mem_cons_self
    rw [List.cons_append, starts, if_neg hd, if_pos rfl]
    exact ih fun c hc => hpre c (List.mem_cons_of_mem _ hc)

theorem starts_append_token (htok : ∀ c ∈ tok, InToken d c) (s : List UInt8) :
    starts d false (tok ++ s) = starts d false s := by
  induction tok with
  | nil => rfl
  | cons c tok ih =>
    obtain ⟨hcd, hc0⟩ := htok c List.mem_cons_self
    rw [List.cons_append, starts, if_neg hc0, if_neg hcd, if_neg Bool.false_ne_true]
    exact ih fun c hc => htok c (List.mem_cons_of_mem _ hc)

theorem cut_append {e : UInt8} (htok : ∀ c ∈ tok, InToken d c) (he : ¬ InToken d e)
    (rest : List UInt8) : cut d (tok ++ e :: rest) = tok ++ 0 :: rest := by
  unfold cut token behind
  rw [List.takeWhile_append_of_pos (by simpa using htok),
    List.dropWhile_append_of_pos (by simpa using htok),
    List.takeWhile_cons_of_neg (by simpa using he), List.dropWhile_cons_of_neg (by simpa using he),
    List.append_nil, List.tail_cons]

theorem cut_getElem? {p : List UInt8} {k : Nat} {c : UInt8} (h : p[k]? = some c) :
    (cut d p)[k]? = some c ∨ ¬ InToken d c ∧ (cut d p)[k]? = some 0 := by
  have hsplit : token d p ++ p.dropWhile (fun c => InToken d c) = p :=
    List.takeWhile_append_dropWhile
  rw [← hsplit] at h
  unfold cut behind
  rcases Nat.lt_or_ge k (token d p).length with hk | hk
  · rw [List.getElem?_append_left hk] at h ⊢
    exact Or.inl h
  · rw [List.getElem?_append_right hk] at h ⊢
    rcases hrest : p.dropWhile fun c => InToken d c with _ | ⟨e, rest⟩
    · rw [hrest] at h
      cases h
    · rw [hrest] at h
      generalize k - (token d p).length = i at h ⊢
      rcases i with _ | i
      · obtain rfl : e = c := Option.some.inj h
        have he := List.head_dropWhile_not (fun c => decide (InToken d c)) (l := p)
          (by simp [hrest])
        simp only [hrest, List.head_cons, decide_eq_false_iff_not] at he
        exact Or.inr ⟨he, rfl⟩
      · exact Or.inl h

theorem first_token (hd : d ≠ 0) {s : List UInt8} (hs : 0 ∈ s) :
    (∃ pre rest, s = pre ++ 0 :: rest ∧ ∀ c ∈ pre, c = d) ∨
      ∃ pre tok e rest, s = pre ++ tok ++ e :: rest ∧ (∀ c ∈ pre, c = d) ∧ tok ≠ [] ∧
        (∀ c ∈ tok, InToken d c) ∧ ¬ InToken d e := by
  obtain ⟨pre, c, s', rfl, hpre, hc⟩ := exists_stop (p := fun c => decide (c = d))
    ⟨0, hs, by simpa using hd.symm⟩
  simp only [decide_eq_true_eq, decide_eq_false_iff_not] at hpre hc
  by_cases hzero : c = 0
  · subst hzero
    exact Or.inl ⟨pre, s', rfl, hpre⟩
  · have hs' : (0 : UInt8) ∈ s' := by
      rcases List.mem_append.mp hs with hp | hp
      · exact absurd (hpre 0 hp) hd.symm
      · exact (List.mem_cons.mp hp).resolve_left fun h => hzero h.symm
    obtain ⟨tok, e, rest, rfl, htok, he⟩ := exists_stop (p := fun c => decide (InToken d c))
      ⟨0, hs', by simp [InToken]⟩
    simp only [decide_eq_true_eq, decide_eq_false_iff_not] at htok he
    refine Or.inr ⟨pre, c :: tok, e, rest, by simp, hpre, List.cons_ne_nil _ _, ?_, he⟩
    exact List.forall_mem_cons.mpr ⟨⟨hc, hzero⟩, htok⟩

/-- What `strtok_r` saves in a string that ends: behind the token, the string still
ends. -/
theorem zero_mem_save (hd : d ≠ 0) {e : UInt8} (hs : 0 ∈ pre ++ tok ++ e :: rest)
    (hpre : ∀ c ∈ pre, c = d) (htok : ∀ c ∈ tok, InToken d c) :
    0 ∈ if e = 0 then 0 :: rest else rest := by
  split_ifs with he
  · exact List.mem_cons_self
  · rcases List.mem_append.mp hs with hp | hp
    · rcases List.mem_append.mp hp with hp | hp
      · exact absurd (hpre 0 hp) hd.symm
      · exact absurd rfl (htok 0 hp).2
    · exact (List.mem_cons.mp hp).resolve_left fun h => he h.symm

/-- In a string that ends, the search ends, and so do the token and what is left. -/
theorem strtok_r_terminated (hd : d ≠ 0) {s : List UInt8} (hs : 0 ∈ s) :
    ∃ tok save, strtok_r d s = some (tok, save) ∧ 0 ∈ save := by
  rcases first_token hd hs with ⟨pre, rest, rfl, hpre⟩ |
    ⟨pre, tok, e, rest, rfl, hpre, hne, htok, he⟩
  · exact ⟨_, _, strtok_r_null hd hpre rest, List.mem_cons_self⟩
  · exact ⟨_, _, strtok_r_token hpre htok hne he rest, zero_mem_save hd hs hpre htok⟩

/-- The character that ends a token counts for what follows, whatever came before. -/
theorem starts_stop {e : UInt8} (he : ¬ InToken d e) (fresh : Bool) (rest : List UInt8) :
    starts d fresh (e :: rest) = starts d true (if e = 0 then 0 :: rest else rest) := by
  by_cases hzero : e = 0
  · simp [starts, hzero]
  · obtain rfl : e = d := by
      by_contra hed
      exact he ⟨hed, hzero⟩
    rw [starts, if_neg hzero, if_pos rfl, if_neg hzero]

theorem starts_token (htok : ∀ c ∈ tok, InToken d c) (hne : tok ≠ []) (s : List UInt8) :
    starts d true (tok ++ s) = (tok ++ s) :: starts d false s := by
  obtain ⟨c, tok, rfl⟩ := List.exists_cons_of_ne_nil hne
  obtain ⟨⟨hcd, hc0⟩, htok'⟩ := List.forall_mem_cons.mp htok
  rw [List.cons_append, starts, if_neg hc0, if_neg hcd, if_pos rfl, starts_append_token htok']

/-- `strtok_r` finds the tokens of a string in the order in which they start. -/
theorem strtok_r_cons (hd : d ≠ 0) {s p : List UInt8} {ps : List (List UInt8)} (hs : 0 ∈ s)
    (hstarts : starts d true s = p :: ps) :
    ∃ save, strtok_r d s = some (some (cut d p), save) ∧ 0 ∈ save ∧ starts d true save = ps := by
  rcases first_token hd hs with ⟨pre, rest, rfl, hpre⟩ |
    ⟨pre, tok, e, rest, rfl, hpre, hne, htok, he⟩
  · rw [starts_append_delims hd hpre, starts, if_pos rfl] at hstarts
    cases hstarts
  · rw [List.append_assoc, starts_append_delims hd hpre, starts_token htok hne,
      starts_stop he] at hstarts
    obtain ⟨rfl, rfl⟩ := List.cons.inj hstarts
    rw [cut_append htok he]
    exact ⟨_, strtok_r_token hpre htok hne he rest, zero_mem_save hd hs hpre htok, rfl⟩

theorem strtok_r_nil (hd : d ≠ 0) {s : List UInt8} (hs : 0 ∈ s) (hstarts : starts d true s = []) :
    ∃ save, strtok_r d s = some (none, save) := by
  rcases first_token hd hs with ⟨pre, rest, rfl, hpre⟩ |
    ⟨pre, tok, e, rest, rfl, hpre, hne, htok, he⟩
  · exact ⟨_, strtok_r_null hd hpre rest⟩
  · rw [List.append_assoc, starts_append_delims hd hpre, starts_token htok hne] at hstarts
    cases hstarts

theorem starts_length (d : UInt8) (fresh : Bool) (s : List UInt8) :
    (starts d fresh s).length ≤ s.length := by
  induction s generalizing fresh with
  | nil => exact Nat.le_refl 0
  | cons c s ih =>
    have h := ih true
    have h' := ih false
    unfold starts
    split_ifs <;> simp only [List.length_nil, List.length_cons] <;> omega

theorem token_ne_nil {fresh : Bool} {s p : List UInt8} (hp : p ∈ starts d fresh s) :
    token d p ≠ [] := by
  induction s generalizing fresh with
  | nil => cases hp
  | cons c s ih =>
    unfold starts at hp
    split_ifs at hp with hc0 hcd hfresh
    · cases hp
    · exact ih hp
    · rcases List.mem_cons.mp hp with rfl | hp'
      · unfold token
        rw [List.takeWhile_cons_of_pos (by simp [InToken, hc0, hcd])]
        exact List.cons_ne_nil _ _
      · exact ih hp'
    · exact ih hp

/-- A token of two pieces starts in the first, behind a delimiter or at the start, or it
starts in the second. -/
theorem mem_starts_append {fresh : Bool} {l s p : List UInt8} (hp : p ∈ starts d fresh (l ++ s)) :
    (∃ x y, y ≠ [] ∧ p = y ++ s ∧ ((fresh = true ∧ l = y) ∨ l = x ++ d :: y)) ∨
      ∃ fresh', p ∈ starts d fresh' s := by
  induction l generalizing fresh with
  | nil => exact Or.inr ⟨fresh, hp⟩
  | cons c l ih =>
    rw [List.cons_append] at hp
    unfold starts at hp
    split_ifs at hp with hc0 hcd hfresh
    · cases hp
    · subst hcd
      rcases ih hp with ⟨x, y, hy, rfl, ⟨-, rfl⟩ | rfl⟩ | hs
      · exact Or.inl ⟨[], l, hy, rfl, Or.inr rfl⟩
      · exact Or.inl ⟨c :: x, y, hy, rfl, Or.inr rfl⟩
      · exact Or.inr hs
    · rcases List.mem_cons.mp hp with rfl | hp'
      · exact Or.inl ⟨[], c :: l, List.cons_ne_nil _ _, rfl, Or.inl ⟨hfresh, rfl⟩⟩
      · rcases ih hp' with ⟨x, y, hy, rfl, ⟨hf, -⟩ | rfl⟩ | hs
        · cases hf
        · exact Or.inl ⟨c :: x, y, hy, rfl, Or.inr rfl⟩
        · exact Or.inr hs
    · rcases ih hp with ⟨x, y, hy, rfl, ⟨hf, -⟩ | rfl⟩ | hs
      · cases hf
      · exact Or.inl ⟨c :: x, y, hy, rfl, Or.inr rfl⟩
      · exact Or.inr hs

/-- There is a token exactly when some character of the string is no delimiter. -/
theorem starts_ne_nil_iff (hd : d ≠ 0) {s : List UInt8} (hs : 0 ∈ s) :
    starts d true s ≠ [] ↔ ∃ c ∈ cstr s, c ≠ d := by
  rcases first_token hd hs with ⟨pre, rest, rfl, hpre⟩ |
    ⟨pre, tok, e, rest, rfl, hpre, hne, htok, he⟩
  · have hzero : 0 ∉ pre := fun h => hd (hpre 0 h).symm
    rw [starts_append_delims hd hpre, starts, if_pos rfl, cstr_append hzero]
    simp only [ne_eq, not_true_eq_false, false_iff, not_exists, not_and, not_not]
    exact hpre
  · rw [List.append_assoc, starts_append_delims hd hpre, starts_token htok hne]
    refine ⟨fun _ => ?_, fun _ => List.cons_ne_nil _ _⟩
    obtain ⟨c, tok, rfl⟩ := List.exists_cons_of_ne_nil hne
    obtain ⟨hcd, hc0⟩ := htok c List.mem_cons_self
    refine ⟨c, ?_, hcd⟩
    unfold cstr
    rw [List.takeWhile_append_of_pos]
    · apply List.mem_append_right
      rw [List.cons_append, List.takeWhile_cons_of_pos (by simpa using hc0)]
      exact List.mem_cons_self
    · intro x hx
      rw [hpre x hx]
      simpa using hd

/-- A string without an end is never over: there is another token, or the search leaves
the object. -/
theorem strtok_r_unterminated {s : List UInt8} (hs : 0 ∉ s) :
    strtok_r d s = none ∨ ∃ p save, strtok_r d s = some (some p, save) ∧ 0 ∉ save := by
  unfold strtok_r
  rcases hdrop : s.dropWhile fun c => c = d with _ | ⟨c, cs⟩
  · exact Or.inl rfl
  · have hcs : 0 ∉ c :: cs := fun h => hs ((List.dropWhile_sublist _).subset (hdrop ▸ h))
    have hc : c ≠ 0 := fun h => hcs (h ▸ List.mem_cons_self)
    simp only [hc, if_false]
    rcases hend : (c :: cs).dropWhile fun c => InToken d c with _ | ⟨e, rest⟩
    · exact Or.inl rfl
    · have hrest : 0 ∉ e :: rest := fun h => hcs ((List.dropWhile_sublist _).subset (hend ▸ h))
      have he : e ≠ 0 := fun h => hrest (h ▸ List.mem_cons_self)
      refine Or.inr ⟨_, _, rfl, ?_⟩
      rw [if_neg he]
      exact fun h => hrest (List.mem_cons_of_mem _ h)

end tokens

end cstrings
