import Mathlib.Data.List.Forall2
import Mathlib.Data.List.TakeWhile

/-!
# Runs of marks in a list

`runs mark xs` finds the maximal runs of a marked element: where each starts and how long it
is. A list is `Laid` out for some things when each has a run of its own, in order, and something
unmarked stands after every run; then the runs that are found are those, in that order.
-/
namespace Runs

variable {α β : Type*}

/-- The runs in a list whose first element has index `p` and comes after `prev`. -/
def scan [DecidableEq α] (mark : α → Bool) : Option α → ℕ → List α → List (ℕ × ℕ)
  | _, _, [] => []
  | prev, p, x :: xs =>
    if mark x ∧ prev ≠ some x then
      (p, (x :: xs).takeWhile (· = x) |>.length) :: scan mark (some x) (p + 1) xs
    else scan mark (some x) (p + 1) xs

def runs [DecidableEq α] (mark : α → Bool) (xs : List α) : List (ℕ × ℕ) := scan mark none 0 xs

/-- Elements with what they stand for: `rows b` times `slot b` for each `b`, in order, and
unmarked ones between them. -/
inductive Laid (mark : α → Bool) (slot : β → α) (rows : β → ℕ) :
    List (α × Option β) → List β → Prop
  | nil : Laid mark slot rows [] []
  | gap {x : α} {xs : List (α × Option β)} {bs : List β} : mark x = false →
      Laid mark slot rows xs bs → Laid mark slot rows ((x, none) :: xs) bs
  | run {x : α} {b : β} {xs : List (α × Option β)} {bs : List β} : mark (slot b) = true →
      0 < rows b → mark x = false → Laid mark slot rows xs bs →
      Laid mark slot rows (List.replicate (rows b) (slot b, some b) ++ (x, none) :: xs) (b :: bs)

/-- The run `r`, counted from `p`, is that of `b`: it has its length, its place is filled with
what stands for `b`, and after it comes something that stands for nothing. -/
def Holds (slot : β → α) (rows : β → ℕ) (xs : List (α × Option β)) (p : ℕ) (r : ℕ × ℕ) (b : β) :
    Prop :=
  r.2 = rows b ∧ ∃ at_, r.1 = p + at_ ∧ (∀ q, q < rows b → xs[at_ + q]? = some (slot b, some b)) ∧
    ∃ x, xs[at_ + rows b]? = some (x, none)

variable {mark : α → Bool} {slot : β → α} {rows : β → ℕ} {xs ys : List (α × Option β)}
  {bs cs : List β}

theorem Laid.append (h : Laid mark slot rows xs bs) (h' : Laid mark slot rows ys cs) :
    Laid mark slot rows (xs ++ ys) (bs ++ cs) := by
  induction h with
  | nil => exact h'
  | gap hx _ ih => exact .gap hx ih
  | run hslot hrows hx _ ih =>
    rw [List.append_assoc]
    exact .run hslot hrows hx ih

theorem laid_gaps {ts : List α} (h : ∀ t ∈ ts, mark t = false) :
    Laid mark slot rows (ts.map fun t => (t, none)) [] := by
  induction ts with
  | nil => exact .nil
  | cons t ts ih =>
    exact .gap (h t List.mem_cons_self) (ih fun u hu => h u (List.mem_cons_of_mem t hu))

theorem Holds.shift {p n : ℕ} {r : ℕ × ℕ} {b : β} (h : Holds slot rows xs (p + n) r b)
    (zs : List (α × Option β)) (hzs : zs.length = n) : Holds slot rows (zs ++ xs) p r b := by
  obtain ⟨hrows, i, hi, hslots, x, hx⟩ := h
  refine ⟨hrows, n + i, by omega, ?_, x, ?_⟩
  · intro q hq
    rw [List.getElem?_append_right (by omega), ← hslots q hq]
    congr 1
    omega
  · rw [List.getElem?_append_right (by omega), ← hx]
    congr 1
    omega

variable [DecidableEq α]

/-- The rest of a run that has begun is passed over. -/
theorem scan_replicate (x : α) (n p : ℕ) (ys : List α) :
    scan mark (some x) p (List.replicate n x ++ ys) = scan mark (some x) (p + n) ys := by
  induction n generalizing p with
  | zero => rfl
  | succ n ih =>
    rw [List.replicate_succ, List.cons_append, scan, if_neg (by simp), ih, Nat.add_right_comm]
    rfl

theorem takeWhile_run {x y : α} (hy : y ≠ x) (n : ℕ) (ys : List α) :
    ((List.replicate n x ++ y :: ys).takeWhile (· = x)).length = n := by
  rw [List.takeWhile_append_of_pos, List.takeWhile_cons_of_neg]
  · simp
  · simpa using hy
  · intro z hz
    simpa using List.eq_of_mem_replicate hz

theorem scan_unmarked {x : α} (hx : mark x = false) (prev : Option α) (p : ℕ) (ys : List α) :
    scan mark prev p (x :: ys) = scan mark (some x) (p + 1) ys := by
  rw [scan, if_neg (by simp [hx])]

/-- A whole run is found once, with its length. -/
theorem scan_run {x y : α} {prev : Option α} (hx : mark x = true) (hprev : prev ≠ some x)
    (hy : mark y = false) {n : ℕ} (hn : 0 < n) (p : ℕ) (ys : List α) :
    scan mark prev p (List.replicate n x ++ y :: ys) =
      (p, n) :: scan mark (some y) (p + n + 1) ys := by
  obtain ⟨n, rfl⟩ := Nat.exists_eq_succ_of_ne_zero hn.ne'
  have hne : y ≠ x := by
    rintro rfl
    rw [hx] at hy
    cases hy
  have hlength := takeWhile_run hne (n + 1) ys
  rw [List.replicate_succ, List.cons_append] at hlength ⊢
  rw [scan, if_pos ⟨hx, hprev⟩, hlength, scan_replicate, scan_unmarked hy]
  congr 2
  omega

/-- The runs that are found in a laid out list are those of its things, in order. -/
theorem scan_laid (h : Laid mark slot rows xs bs) {prev : Option α}
    (hprev : ∀ x, prev = some x → mark x = false) (p : ℕ) :
    List.Forall₂ (Holds slot rows xs p) (scan mark prev p (xs.map Prod.fst)) bs := by
  induction h generalizing prev p with
  | nil => exact .nil
  | @gap x xs bs hx _ ih =>
    rw [List.map_cons, scan_unmarked hx]
    refine (ih (fun y hy => Option.some.inj hy ▸ hx) (p + 1)).imp fun r b hr => ?_
    exact hr.shift [(x, none)] rfl
  | @run x b xs bs hslot hrows hx _ ih =>
    have hne : prev ≠ some (slot b) := by
      intro he
      rw [hprev _ he] at hslot
      cases hslot
    rw [List.map_append, List.map_replicate, List.map_cons, scan_run hslot hne hx hrows]
    refine .cons ⟨rfl, 0, rfl, ?_, x, ?_⟩ ?_
    · intro q hq
      rw [Nat.zero_add, List.getElem?_append_left (by simpa using hq), List.getElem?_replicate,
        if_pos hq]
    · rw [Nat.zero_add, List.getElem?_append_right (by simp)]
      simp
    · refine (ih (fun y hy => Option.some.inj hy ▸ hx) (p + rows b + 1)).imp fun r c hr => ?_
      rw [List.append_cons]
      rw [Nat.add_assoc] at hr
      exact hr.shift _ (by simp)

theorem runs_laid (h : Laid mark slot rows xs bs) :
    List.Forall₂ (Holds slot rows xs 0) (runs mark (xs.map Prod.fst)) bs :=
  scan_laid h (fun _ hx => by cases hx) 0

end Runs
