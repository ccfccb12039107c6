import Mathlib

/-!
# Loops over an interval

A loop that runs through `0, 1, …, n - 1` and is known at each step is known at its end.
-/
namespace Loops

variable {σ α : Type*}

/-- A part of a list, if it has that part. -/
def slice (xs : List α) (i j : ℕ) : Option (List α) :=
  if i ≤ j ∧ j ≤ xs.length then some ((xs.drop i).take (j - i)) else none

theorem slice_eq {xs : List α} {i j : ℕ} (hij : i ≤ j) (hj : j ≤ xs.length) :
    slice xs i j = some ((xs.drop i).take (j - i)) := if_pos ⟨hij, hj⟩

theorem slice_append (before part after : List α) {i j : ℕ} (hi : i = before.length)
    (hj : j = before.length + part.length) : slice (before ++ (part ++ after)) i j = some part := by
  subst hi hj
  have hle : before.length + part.length ≤ (before ++ (part ++ after)).length := by simp
  rw [slice_eq (Nat.le_add_right _ _) hle, List.drop_left, Nat.add_sub_cancel_left, List.take_left]

theorem foldlM_range {σ : Type} {m : Type → Type*} [Monad m] [LawfulMonad m] (step : σ → ℕ → m σ) (s : ℕ → σ)
    {n : ℕ} (h : ∀ i < n, step (s i) i = pure (s (i + 1))) : (List.range n).foldlM step (s 0) = pure (s n) := by
  induction n with
  | zero => rfl
  | succ n ih =>
    have hlast := h n (Nat.lt_succ_self n)
    rw [List.range_succ, List.foldlM_append, ih fun i hi => h i (Nat.lt_succ_of_lt hi)]
    simp [hlast]

/-- The same where the states are known by what holds of them. -/
theorem foldlM_range_of {σ : Type} {m : Type → Type*} [Monad m] [LawfulMonad m] (step : σ → ℕ → m σ)
    {P : ℕ → σ → Prop} {s : σ} {n : ℕ} (h₀ : P 0 s)
    (h : ∀ i < n, ∀ t, P i t → ∃ t', step t i = pure t' ∧ P (i + 1) t') :
    ∃ t, (List.range n).foldlM step s = pure t ∧ P n t := by
  induction n with
  | zero => exact ⟨s, rfl, h₀⟩
  | succ n ih =>
    obtain ⟨t, hrun, ht⟩ := ih fun i hi => h i (Nat.lt_succ_of_lt hi)
    obtain ⟨t', hstep, ht'⟩ := h n (Nat.lt_succ_self n) t ht
    refine ⟨t', ?_, ht'⟩
    rw [List.range_succ, List.foldlM_append, hrun]
    simp [hstep]

theorem foldl_range {step : σ → ℕ → σ} {P : ℕ → σ → Prop} {s : σ} {n : ℕ} (h₀ : P 0 s)
    (h : ∀ i < n, ∀ t, P i t → P (i + 1) (step t i)) : P n ((List.range n).foldl step s) := by
  induction n with
  | zero => exact h₀
  | succ n ih =>
    rw [List.range_succ, List.foldl_append]
    exact h n (Nat.lt_succ_self n) _ (ih fun i hi => h i (Nat.lt_succ_of_lt hi))

/-- A map over an interval that never fails. -/
theorem mapM_range {α : Type} {m : Type → Type*} [Monad m] [LawfulMonad m] {f : ℕ → m α} {g : ℕ → α} {n : ℕ}
    (h : ∀ i < n, f i = pure (g i)) : (List.range n).mapM f = pure ((List.range n).map g) := by
  induction n with
  | zero => rfl
  | succ n ih =>
    have hlast := h n (Nat.lt_succ_self n)
    rw [List.range_succ, List.mapM_append, ih fun i hi => h i (Nat.lt_succ_of_lt hi)]
    simp [hlast]

/-- An interval around one of its elements. -/
theorem range_split {k n : ℕ} (h : k < n) : List.range n = List.range k ++ k :: List.range' (k + 1) (n - (k + 1)) := by
  apply List.ext_getElem?
  intro i
  rcases lt_trichotomy i k with hi | rfl | hi
  · rw [List.getElem?_append_left (by simpa using hi)]
    simp [hi, hi.trans h]
  · simp [h]
  · obtain ⟨j, rfl⟩ : ∃ j, i = k + 1 + j := ⟨i - (k + 1), by omega⟩
    rw [List.getElem?_append_right (by simp; omega), List.length_range, show k + 1 + j - k = j + 1 by omega,
      List.getElem?_cons_succ]
    rcases lt_or_ge (k + 1 + j) n with hn | hn
    · rw [List.getElem?_range hn, List.getElem?_range' (by omega)]
      simp
    · rw [List.getElem?_eq_none (by simpa using hn), List.getElem?_eq_none (by simp; omega)]

/-! ## Pieces of one length -/

/-- The pieces of `n` elements of a list, the last with what is left. -/
def chunks (n : ℕ) (xs : List α) : List (List α) :=
  (List.range (xs.length ⌈/⌉ n)).map fun k => (xs.drop (n * k)).take n

theorem chunks_nil (n : ℕ) : chunks n ([] : List α) = [] := by
  rw [chunks, List.length_nil, zero_ceilDiv]
  rfl

/-- The first piece, then those of what is left. -/
theorem chunks_of_ne_nil {n : ℕ} (hn : 0 < n) {xs : List α} (h : xs ≠ []) :
    chunks n xs = xs.take n :: chunks n (xs.drop n) := by
  have hpos := List.length_pos_of_ne_nil h
  have hlen : xs.length ⌈/⌉ n = ((xs.drop n).length ⌈/⌉ n) + 1 := by
    rw [List.length_drop, Nat.ceilDiv_eq_add_pred_div, Nat.ceilDiv_eq_add_pred_div]
    by_cases hle : n ≤ xs.length
    · rw [show xs.length + n - 1 = xs.length - n + n - 1 + n by omega, Nat.add_div_right _ hn]
    · rw [show xs.length - n + n - 1 = n - 1 by omega, Nat.div_eq_of_lt (show n - 1 < n by omega),
        show xs.length + n - 1 = xs.length - 1 + n by omega, Nat.add_div_right _ hn,
        Nat.div_eq_of_lt (show xs.length - 1 < n by omega)]
  rw [chunks, hlen, List.range_succ_eq_map, List.map_cons, List.map_map, Nat.mul_zero, List.drop_zero, chunks]
  congr 1
  apply List.map_congr_left
  intro k _
  rw [Function.comp_apply, List.drop_drop, Nat.mul_succ, Nat.add_comm]

theorem length_flatten_of_length {n : ℕ} {rows : List (List α)} (h : ∀ r ∈ rows, r.length = n) :
    rows.flatten.length = n * rows.length := by
  induction rows with
  | nil => simp
  | cons r rows ih =>
    rw [List.flatten_cons, List.length_append, h r (by simp), ih fun r hr => h r (by simp [hr]),
      List.length_cons]
    ring

theorem drop_flatten_of_length {n : ℕ} {rows : List (List α)} (h : ∀ r ∈ rows, r.length = n) (k : ℕ) :
    rows.flatten.drop (n * k) = (rows.drop k).flatten := by
  induction rows generalizing k with
  | nil => simp
  | cons r rows ih =>
    cases k with
    | zero => simp
    | succ k =>
      have hr : r.length = n := h r (by simp)
      rw [List.flatten_cons, Nat.mul_succ, Nat.add_comm, List.drop_append, hr, Nat.add_sub_cancel_left,
        List.drop_eq_nil_of_le (by omega), List.nil_append, List.drop_succ_cons]
      exact ih (fun r hr => h r (by simp [hr])) k

/-- The pieces end to end. -/
theorem flatten_chunks {n : ℕ} (hn : 0 < n) (xs : List α) : (chunks n xs).flatten = xs := by
  have htake : ∀ k, ((List.range k).map fun i => (xs.drop (n * i)).take n).flatten = xs.take (n * k) := by
    intro k
    induction k with
    | zero => simp
    | succ k ih =>
      rw [List.range_succ, List.map_append, List.flatten_append, ih, Nat.mul_succ, List.take_add]
      simp
  have hle : xs.length ≤ n * (xs.length ⌈/⌉ n) := by
    rw [Nat.ceilDiv_eq_add_pred_div]
    have hdiv := Nat.div_add_mod (xs.length + n - 1) n
    have hmod := Nat.mod_lt (xs.length + n - 1) hn
    omega
  rw [chunks, htake, List.take_of_length_le hle]

theorem chunks_flatten {n : ℕ} (hn : 0 < n) {rows : List (List α)} (h : ∀ r ∈ rows, r.length = n) :
    chunks n rows.flatten = rows := by
  have hlen : rows.flatten.length ⌈/⌉ n = rows.length := by
    rw [length_flatten_of_length h, Nat.ceilDiv_eq_add_pred_div]
    rw [show n * rows.length + n - 1 = (n - 1) + n * rows.length by omega, Nat.add_mul_div_left _ _ hn,
      Nat.div_eq_of_lt (by omega), Nat.zero_add]
  apply List.ext_getElem
  · rw [chunks, List.length_map, List.length_range, hlen]
  · intro k h₁ h₂
    have hrow : rows[k].length = n := h _ (List.getElem_mem h₂)
    simp only [chunks, List.getElem_map, List.getElem_range]
    rw [drop_flatten_of_length h, List.drop_eq_getElem_cons h₂, List.flatten_cons, ← hrow, List.take_left]

end Loops
