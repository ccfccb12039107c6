import Mathlib

/-!
# Ordered choice

Patterns over any alphabet with the meaning that backtracking engines give them: `run` lists what is left of the text
after each way to match at its start, in the order in which an engine tries them, and the engine's answer is the first.
Most patterns need no backtracking, since what comes last in them always matches; the rules here say when.
-/
namespace Choice

variable {α : Type}

/-- Patterns. `star` takes as much as it can first; `unless` takes nothing, where the other does not match. -/
inductive Pat (α : Type) where
  | eps
  | chr (p : α → Bool)
  | seq (a b : Pat α)
  | alt (a b : Pat α)
  | star (a : Pat α)
  | unless (a : Pat α)

/-- Iteration. The fuel bounds the rounds, and a round that takes nothing is not repeated. -/
@[grind =] def rounds (f : List α → List (List α)) : ℕ → List α → List (List α)
  | 0, s => [s]
  | n + 1, s => ((f s).filter fun r => r.length < s.length).flatMap (rounds f n) ++ [s]

namespace Pat

@[grind =] def run : Pat α → List α → List (List α)
  | eps, s => [s]
  | chr _, [] => []
  | chr p, x :: s => if p x then [s] else []
  | seq a b, s => (run a s).flatMap (run b)
  | alt a b, s => run a s ++ run b s
  | star a, s => rounds (run a) s.length s
  | .unless a, s => if (run a s).isEmpty then [s] else []

/-- What the engine's match at the start of the text leaves. -/
@[grind =] def first (a : Pat α) (s : List α) : Option (List α) := (a.run s).head?

@[grind =] def opt (a : Pat α) : Pat α := alt a eps

@[grind =] def plus (a : Pat α) : Pat α := seq a (star a)

/-- Up to `n` copies, as many as possible. -/
@[grind =] def upTo (a : Pat α) : ℕ → Pat α
  | 0 => eps
  | n + 1 => opt (seq a (upTo a n))

/-- The first of several that matches. -/
@[grind =] def anyOf (l : List (Pat α)) : Pat α := l.foldr alt (chr fun _ => false)

/-- A pattern that matches wherever it is tried. -/
def Total (a : Pat α) : Prop := ∀ s, ∃ r, a.first s = some r

variable {a b : Pat α} {p q : α → Bool} {s : List α}

/-! ## Choice -/

@[simp] theorem first_eps : (eps : Pat α).first s = some s := rfl

@[simp] theorem first_chr_nil : (chr p).first [] = none := rfl

@[simp] theorem first_alt : (alt a b).first s = (a.first s).or (b.first s) := by
  rw [first, run, List.head?_append]
  rfl

@[simp] theorem first_opt : (opt a).first s = (a.first s).or (some s) := first_alt

theorem first_seq : (seq a b).first s = (a.run s).findSome? b.first := by
  rw [first, run, List.head?_flatMap]
  rfl

theorem first_anyOf_nil : (anyOf [] : Pat α).first s = none := by
  cases s <;> rfl

theorem first_anyOf_cons (l : List (Pat α)) : (anyOf (a :: l)).first s = (a.first s).or ((anyOf l).first s) := first_alt

theorem first_unless_chr : (Pat.unless (chr p)).first s = if s.head?.any p then none else some s := by
  cases s with
  | nil => rfl
  | cons x s => cases hx : p x <;> simp [first, run, hx]

/-! ## Patterns that always match -/

theorem total_opt (a : Pat α) : Total a.opt := by
  intro s
  rw [first_opt]
  cases a.first s with
  | none => exact ⟨s, rfl⟩
  | some r => exact ⟨r, rfl⟩

/-- What is followed by a pattern that always matches is not tried again. -/
theorem first_seq_of_total (hb : Total b) : (seq a b).first s = (a.first s).bind b.first := by
  rw [first_seq, first]
  cases a.run s with
  | nil => rfl
  | cons r l =>
    obtain ⟨r', hr⟩ := hb r
    rw [List.findSome?_cons_of_isSome (by rw [hr]; rfl), List.head?_cons, Option.bind_some]

theorem first_seq_chr (x : α) : (seq (chr p) b).first (x :: s) = if p x then b.first s else none := by
  rw [first_seq, run]
  split_ifs <;> simp

@[simp] theorem first_seq_chr_nil : (seq (chr p) b).first [] = none := rfl

/-- An optional character is taken if the rest then matches. -/
theorem first_seq_opt_chr (x : α) :
    (seq (opt (chr p)) b).first (x :: s) = (if p x then b.first s else none).or (b.first (x :: s)) := by
  rw [first_seq, opt, run, run, run, List.findSome?_append]
  split_ifs <;> simp

theorem first_seq_opt_chr_nil : (seq (opt (chr p)) b).first [] = b.first [] := by
  rw [first_seq, opt, run, run, run]
  simp

theorem first_upTo_chr (n : ℕ) : ((chr p).upTo n).first s = some (s.drop ((s.take n).takeWhile p).length) := by
  induction n generalizing s with
  | zero => simp [upTo]
  | succ n ih =>
    rw [upTo, first_opt]
    cases s with
    | nil => rfl
    | cons x s =>
      rw [first_seq_chr, List.take_succ_cons, List.takeWhile_cons]
      split_ifs
      · rw [ih]
        rfl
      · rfl

/-! ## Runs -/

/-- What is left after each part of a run, the longest part first. -/
@[grind =] def backs (p : α → Bool) : List α → List (List α)
  | [] => [[]]
  | x :: s => if p x then backs p s ++ [x :: s] else [x :: s]

theorem rounds_chr (n : ℕ) (h : s.length ≤ n) : rounds (chr p).run n s = backs p s := by
  induction n generalizing s with
  | zero =>
    rw [List.length_eq_zero_iff.mp (Nat.le_zero.mp h)]
    rfl
  | succ n ih =>
    cases s with
    | nil => rfl
    | cons x s =>
      rw [rounds, run, backs]
      split_ifs with hx
      · have hrest := ih (Nat.le_of_succ_le_succ h)
        simp [hrest]
      · rfl

theorem run_star_chr : (star (chr p)).run s = backs p s := rounds_chr s.length le_rfl

theorem backs_eq : backs p s = ((List.range ((s.takeWhile p).length + 1)).reverse.map fun k => s.drop k) := by
  induction s with
  | nil => rfl
  | cons x s ih =>
    rw [backs, List.takeWhile_cons]
    split_ifs
    · have hrange (m : ℕ) : List.range (m + 1) = 0 :: (List.range m).map Nat.succ := List.range_succ_eq_map
      rw [ih, List.length_cons, hrange ((s.takeWhile p).length + 1)]
      simp [Function.comp_def]
    · simp

theorem head?_backs : (backs p s).head? = some (s.dropWhile p) := by
  induction s with
  | nil => rfl
  | cons x s ih =>
    rw [backs, List.dropWhile_cons]
    split_ifs
    · rw [List.head?_append, ih]
      rfl
    · rfl

theorem first_star_chr : (star (chr p)).first s = some (s.dropWhile p) := by
  rw [first, run_star_chr, head?_backs]

theorem total_star_chr (p : α → Bool) : Total (star (chr p)) := fun _ => ⟨_, first_star_chr⟩

/-- A run is as long as it can be. -/
theorem first_plus_chr : (plus (chr p)).first s = if s.head?.any p then some (s.dropWhile p) else none := by
  rw [plus]
  cases s with
  | nil => rfl
  | cons x s =>
    rw [first_seq_chr, first_star_chr, List.head?_cons, Option.any_some, List.dropWhile_cons]
    split_ifs <;> rfl

/-- A run gives back what the rest needs. -/
theorem first_seq_star_chr : (seq (star (chr p)) b).first s = (backs p s).findSome? b.first := by
  rw [first_seq, run_star_chr]

theorem first_seq_plus_chr (x : α) :
    (seq (plus (chr p)) b).first (x :: s) = if p x then (backs p s).findSome? b.first else none := by
  rw [first_seq, plus, run, run]
  split_ifs
  · rw [List.flatMap_singleton, run_star_chr]
  · rfl

theorem drop_takeWhile (p : α → Bool) (s : List α) : s.drop (s.takeWhile p).length = s.dropWhile p := by
  induction s with
  | nil => rfl
  | cons x s ih =>
    rw [List.takeWhile_cons, List.dropWhile_cons]
    split_ifs
    · exact ih
    · rfl

/-- A run that nothing else may follow gives back its last character, if it has another. -/
theorem findSome?_backs_unless :
    (backs p s).findSome? (Pat.unless (chr fun x => !p x)).first =
      if s.dropWhile p = [] then some []
      else if s.takeWhile p = [] then none
      else some (s.drop ((s.takeWhile p).length - 1)) := by
  induction s with
  | nil => rfl
  | cons x s ih =>
    rw [backs, List.takeWhile_cons, List.dropWhile_cons]
    by_cases hx : p x
    · rw [if_pos hx, if_pos hx, if_pos hx, List.findSome?_append, ih, if_neg (List.cons_ne_nil _ _), List.length_cons,
        Nat.add_sub_cancel]
      by_cases hdrop : s.dropWhile p = []
      · rw [if_pos hdrop, if_pos hdrop]
        rfl
      · rw [if_neg hdrop, if_neg hdrop]
        cases htake : s.takeWhile p with
        | nil => simp [first_unless_chr, hx]
        | cons y t => simp
    · rw [if_neg hx, if_neg hx, if_neg hx, if_neg (List.cons_ne_nil _ _), if_pos rfl]
      simp [first_unless_chr, hx]

end Pat

end Choice
