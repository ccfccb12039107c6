import Mathlib

/-!
# Cutting at a separator

A list is cut at the first place where a separator stands. Where it is cut does not depend on how much
of the list is there, once the separator is.
-/
namespace Split

variable {α : Type*} [DecidableEq α] {sep text rest xs ys : List α}

/-- What stands before and behind the first `sep`. -/
@[grind =] def cut (sep : List α) : List α → Option (List α × List α)
  | [] => if sep = [] then some ([], []) else none
  | x :: xs =>
    if sep <+: x :: xs then some ([], (x :: xs).drop sep.length) else (cut sep xs).map fun p => (x :: p.1, p.2)

theorem cut_of_isPrefix (h : sep <+: xs) : cut sep xs = some ([], xs.drop sep.length) := by
  cases xs with
  | nil =>
    obtain rfl := List.prefix_nil.mp h
    rfl
  | cons x xs => rw [cut, if_pos h]

theorem cut_of_length_lt (h : xs.length < sep.length) : cut sep xs = none := by
  induction xs with
  | nil =>
    rw [cut, if_neg]
    rintro rfl
    exact absurd h (Nat.lt_irrefl 0)
  | cons x xs ih =>
    rw [cut, if_neg fun hpre => absurd hpre.length_le (Nat.not_le_of_lt h), ih ((Nat.lt_succ_self _).trans h)]
    rfl

theorem append_of_cut (h : cut sep xs = some (text, rest)) : xs = text ++ sep ++ rest := by
  induction xs generalizing text with
  | nil =>
    rw [cut] at h
    split_ifs at h with hsep
    obtain ⟨rfl, rfl⟩ := Prod.mk.inj (Option.some.inj h)
    rw [hsep]
    rfl
  | cons x xs ih =>
    rw [cut] at h
    split_ifs at h with hpre
    · obtain ⟨rfl, rfl⟩ := Prod.mk.inj (Option.some.inj h)
      rw [List.nil_append, List.prefix_iff_eq_append.mp hpre]
    · obtain ⟨p, hp, hx⟩ := Option.map_eq_some_iff.mp h
      obtain ⟨rfl, rfl⟩ := Prod.mk.inj hx
      rw [ih hp]
      rfl

/-- The first part of a list is cut where the whole is, or the separator has not come yet. -/
theorem cut_append (hsep : sep ≠ []) (h : cut sep (xs ++ ys) = some (text, rest)) :
    (∃ r, cut sep xs = some (text, r) ∧ rest = r ++ ys) ∨
      cut sep xs = none ∧ xs.length < text.length + sep.length := by
  induction xs generalizing text with
  | nil => exact .inr ⟨by rw [cut, if_neg hsep], Nat.add_pos_right _ (List.length_pos_iff.mpr hsep)⟩
  | cons x xs ih =>
    rw [List.cons_append] at h
    by_cases hpre : sep <+: x :: xs
    · left
      have hall : sep <+: x :: (xs ++ ys) := hpre.trans (List.prefix_append (x :: xs) ys)
      rw [cut_of_isPrefix hall] at h
      obtain ⟨rfl, rfl⟩ := Prod.mk.inj (Option.some.inj h)
      exact ⟨_, cut_of_isPrefix hpre, List.drop_append_of_le_length hpre.length_le⟩
    · by_cases hall : sep <+: x :: (xs ++ ys)
      · right
        have hlt : (x :: xs).length < sep.length := by
          by_contra hle
          exact hpre (List.prefix_of_prefix_length_le hall (List.prefix_append (x :: xs) ys) (by omega))
        rw [cut_of_isPrefix hall] at h
        obtain ⟨rfl, -⟩ := Prod.mk.inj (Option.some.inj h)
        exact ⟨cut_of_length_lt hlt, by rwa [List.length_nil, Nat.zero_add]⟩
      · rw [cut, if_neg hall] at h
        obtain ⟨p, hp, hx⟩ := Option.map_eq_some_iff.mp h
        obtain ⟨rfl, rfl⟩ := Prod.mk.inj hx
        rw [cut, if_neg hpre]
        obtain ⟨r, hr, hrest⟩ | ⟨hnone, hlt⟩ := ih hp
        · exact .inl ⟨r, by rw [hr]; rfl, hrest⟩
        · refine .inr ⟨by rw [hnone]; rfl, ?_⟩
          rw [List.length_cons, List.length_cons]
          omega

/-- A text in which a separator does not begin. -/
theorem cut_of_notMem {a : α} (h : a ∉ text) : cut (a :: sep) (text ++ (a :: sep) ++ rest) = some (text, rest) := by
  induction text with
  | nil => rw [List.nil_append, cut_of_isPrefix (List.prefix_append _ _), List.drop_left]
  | cons x text ih =>
    have hne : ¬a :: sep <+: x :: (text ++ (a :: sep) ++ rest) := by
      intro hpre
      obtain ⟨rfl, -⟩ := List.cons_prefix_cons.mp hpre
      exact h List.mem_cons_self
    rw [List.cons_append, List.cons_append, cut, if_neg hne, ih fun hmem => h (List.mem_cons_of_mem x hmem)]
    rfl

/-- A text in which a separator neither stands nor begins so that the one behind it ends it. -/
theorem cut_of_not_infix (hsep : sep ≠ []) (h : ¬sep <:+: text ++ sep.dropLast) :
    cut sep (text ++ sep ++ rest) = some (text, rest) := by
  induction text with
  | nil => rw [List.nil_append, cut_of_isPrefix (List.prefix_append _ _), List.drop_left]
  | cons x text ih =>
    have hpos := List.length_pos_iff.mpr hsep
    have hne : ¬sep <+: x :: (text ++ sep ++ rest) := by
      intro hpre
      have hmid : (x :: text ++ sep.dropLast) <+: x :: (text ++ sep ++ rest) := by
        rw [List.append_assoc, List.cons_append]
        exact List.cons_prefix_cons.mpr ⟨rfl, (List.prefix_append_right_inj _).mpr
          ((List.dropLast_prefix sep).trans (List.prefix_append _ _))⟩
      have hlen : sep.length ≤ (x :: text ++ sep.dropLast).length := by
        rw [List.length_append, List.length_cons, List.length_dropLast]
        omega
      exact h (List.prefix_of_prefix_length_le hpre hmid hlen).isInfix
    rw [List.cons_append, List.cons_append, cut, if_neg hne, ih fun hin => h (hin.trans (List.suffix_cons x _).isInfix)]
    rfl

/-- A text in which a separator does not stand is not cut. -/
theorem cut_of_not_infix_self (h : ¬sep <:+: xs) : cut sep xs = none := by
  cases hcut : cut sep xs with
  | none => rfl
  | some p => exact absurd ⟨p.1, p.2, (append_of_cut hcut).symm⟩ h

omit [DecidableEq α] in
/-- A separator that cannot begin in `xs`, with `mid` behind it, begins behind `xs` or nowhere. -/
theorem not_infix_append {mid : List α} (h : ∀ t ∈ xs.tails, t ≠ [] → ¬(t ++ mid) <+: sep ∧ ¬sep <+: t ++ mid)
    (hrest : ¬sep <:+: mid ++ ys) : ¬sep <:+: xs ++ mid ++ ys := by
  induction xs with
  | nil => exact hrest
  | cons x xs ih =>
    have htails : (x :: xs).tails = (x :: xs) :: xs.tails := rfl
    rw [htails] at h
    have hnext : ¬sep <:+: xs ++ mid ++ ys := ih fun t ht => h t (List.mem_cons_of_mem _ ht)
    obtain ⟨hlong, hshort⟩ := h (x :: xs) List.mem_cons_self (List.cons_ne_nil x xs)
    intro hin
    rcases List.infix_cons_iff.mp hin with hpre | hin
    · have hmid : (x :: xs ++ mid) <+: (x :: xs ++ mid) ++ ys := List.prefix_append _ _
      rcases List.prefix_or_prefix_of_prefix hpre hmid with hp | hp
      · exact hshort hp
      · exact hlong hp
    · exact hnext hin

omit [DecidableEq α] in
/-- A separator that does not hold an element stands on one side of it. -/
theorem infix_side {a : α} (ha : a ∉ sep) (h : sep <:+: xs ++ a :: ys) : sep <:+: xs ∨ sep <:+: ys := by
  induction xs with
  | nil =>
    rcases List.infix_cons_iff.mp h with hpre | hin
    · cases sep with
      | nil => exact .inl List.nil_infix
      | cons b sep =>
        obtain ⟨rfl, -⟩ := List.cons_prefix_cons.mp hpre
        exact absurd List.mem_cons_self ha
    · exact .inr hin
  | cons x xs ih =>
    rcases List.infix_cons_iff.mp h with hpre | hin
    · left
      have hmid : (x :: xs) <+: x :: xs ++ a :: ys := List.prefix_append _ _
      rcases List.prefix_or_prefix_of_prefix hpre hmid with hp | ⟨r, hr⟩
      · exact hp.isInfix
      · -- the separator would reach over the element
        cases r with
        | nil => exact ⟨[], [], by rw [← hr]; simp⟩
        | cons b r =>
          have hpre' : (x :: xs) ++ b :: r <+: (x :: xs) ++ a :: ys := hr ▸ hpre
          have hb := (List.cons_prefix_cons.mp ((List.prefix_append_right_inj _).mp hpre')).1
          exact absurd (hr ▸ List.mem_append_right _ (hb ▸ List.mem_cons_self)) ha
    · rcases ih hin with hin | hin
      · exact .inl (hin.trans (List.suffix_cons x xs).isInfix)
      · exact .inr hin

end Split
