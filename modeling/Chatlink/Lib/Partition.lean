import Mathlib

/-!
# Binary search for a partition point

The search keeps a place and a size that is halved. On a list that is cut in two by the predicate it
finds the cut; elsewhere its answer is where the halving ends.
-/
namespace Partition

/-- The place from `base` where the halving ends; the fuel bounds how often. -/
def narrow (q : ℕ → Bool) : ℕ → ℕ → ℕ → ℕ
  | 0, _, base => base
  | fuel + 1, size, base =>
    if 1 < size then narrow q fuel (size - size / 2) (if q (base + size / 2) then base + size / 2 else base)
    else base

variable {α κ : Type*} {p : α → Bool} {xs : List α} {q : ℕ → Bool} {n k size base : ℕ}

/-- `partition_point`: the number of elements in front for which `p` holds, if it holds for no other. -/
def point (p : α → Bool) (xs : List α) : ℕ :=
  let q (i : ℕ) : Bool := (xs[i]?).any p
  let base := narrow q xs.length xs.length 0
  if q base then base + 1 else base

/-- The cut stays between the place and the end of the size. -/
theorem narrow_spec (hq : ∀ i < n, q i = decide (i < k)) (fuel : ℕ) (hfuel : size ≤ fuel + 1) (hin : base + size ≤ n)
    (hpos : 0 < size) (hbase : base = 0 ∨ base < k) (hend : k ≤ base + size) :
    narrow q fuel size base < n ∧ (narrow q fuel size base = 0 ∨ narrow q fuel size base < k) ∧
      k ≤ narrow q fuel size base + 1 := by
  induction fuel generalizing size base with
  | zero =>
    rw [narrow]
    exact ⟨by omega, hbase, by omega⟩
  | succ fuel ih =>
    rw [narrow]
    by_cases hsize : 1 < size
    · rw [if_pos hsize, hq _ (by omega)]
      by_cases hmid : base + size / 2 < k
      · rw [decide_eq_true hmid]
        exact ih (by omega) (by simp only [if_true]; omega) (by omega) (by simp only [if_true]; omega)
          (by simp only [if_true]; omega)
      · rw [decide_eq_false hmid]
        exact ih (by omega) (by simp only [Bool.false_eq_true, if_false]; omega) (by omega) hbase
          (by simp only [Bool.false_eq_true, if_false]; omega)
    · rw [if_neg hsize]
      exact ⟨by omega, hbase, by omega⟩

/-- On a list whose front is what `p` holds for, the search finds its end. -/
theorem point_eq (hp : xs.Pairwise fun a b => p b = true → p a = true) : point p xs = (xs.takeWhile p).length := by
  have hq : ∀ i < xs.length, (xs[i]?).any p = decide (i < (xs.takeWhile p).length) := by
    induction xs with
    | nil => exact fun i hi => absurd hi (Nat.not_lt_zero i)
    | cons x xs ih =>
      obtain ⟨hx, hxs⟩ := List.pairwise_cons.mp hp
      intro i hi
      cases hpx : p x with
      | true =>
        rw [List.takeWhile_cons_of_pos hpx]
        cases i with
        | zero => simp [hpx]
        | succ i => simpa using ih hxs i (by simpa using hi)
      | false =>
        rw [List.takeWhile_cons_of_neg (by simp [hpx])]
        cases i with
        | zero => simp [hpx]
        | succ i =>
          have hi' : i < xs.length := by simpa using hi
          have hno : p xs[i] = false := by
            by_contra hyes
            exact absurd (hx _ (List.getElem_mem hi') (by simpa using hyes)) (by simp [hpx])
          simp [hi', hno]
  have hk : (xs.takeWhile p).length ≤ xs.length := (List.takeWhile_prefix p).length_le
  rcases Nat.eq_zero_or_pos xs.length with hnil | hpos
  · obtain rfl := List.length_eq_zero_iff.mp hnil
    rfl
  · obtain ⟨hlt, hbase, hend⟩ := narrow_spec hq xs.length (Nat.le_succ _) (Nat.zero_add _).le hpos (Or.inl rfl)
      (by omega)
    have hcut := hq _ hlt
    unfold point
    dsimp only
    split_ifs with hyes
    · rw [hyes] at hcut
      have := of_decide_eq_true hcut.symm
      omega
    · rw [Bool.not_eq_true] at hyes
      rw [hyes] at hcut
      have := of_decide_eq_false hcut.symm
      omega

/-- Behind the cut stand, in order, the elements of the key that was searched for. -/
theorem takeWhile_drop_point [LinearOrder κ] {key : α → κ} {a : κ} (h : xs.Pairwise fun x y => key x ≤ key y) :
    (xs.drop (point (fun x => decide (key x < a)) xs)).takeWhile (fun x => decide (key x = a)) =
      xs.filter fun x => decide (key x = a) := by
  have hfront : xs.Pairwise fun x y => decide (key y < a) = true → decide (key x < a) = true :=
    h.imp fun hle hy => decide_eq_true (lt_of_le_of_lt hle (of_decide_eq_true hy))
  rw [point_eq hfront]
  induction xs with
  | nil => rfl
  | cons x xs ih =>
    obtain ⟨hx, hxs⟩ := List.pairwise_cons.mp h
    have hih := ih hxs (List.pairwise_cons.mp hfront).2
    rcases lt_trichotomy (key x) a with hlt | heq | hgt
    · simpa [hlt, hlt.ne] using hih
    · have hrest : (xs.takeWhile fun y => decide (key y < a)) = [] := by
        rw [List.takeWhile_eq_nil_iff]
        intro hpos
        simpa [heq] using hx _ (List.getElem_mem hpos)
      rw [hrest, List.length_nil, List.drop_zero] at hih
      simpa [heq] using hih
    · have hnone : (x :: xs).filter (fun y => decide (key y = a)) = [] := by
        rw [List.filter_eq_nil_iff]
        intro y hy
        rcases List.mem_cons.mp hy with rfl | hy
        · simp [hgt.ne']
        · simp [(hgt.trans_le (hx y hy)).ne']
      rw [hnone]
      simp [hgt.le.not_gt, hgt.ne']

end Partition
