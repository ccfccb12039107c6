import Mathlib

/-!
# A loop over work items that an exception cuts short

`sweep todo act` goes through a list and replaces every item of the work by the result
of `act`, which may also report something. When `act` raises, the sweep stops there:
that item and all later ones stay as they were. The items on which `act` was called are
kept in order.
-/
namespace Sweep

/-- What a sweep leaves behind. -/
structure Outcome (α ω : Type*) where
  items : List α
  tried : List α
  reports : List ω
  complete : Bool

variable {α ω : Type*} (todo : α → Bool) (act : α → Option (α × List ω))

@[grind =] def sweep : List α → Outcome α ω
  | [] => ⟨[], [], [], true⟩
  | a :: as =>
    if todo a then
      match act a with
      | none => ⟨a :: as, [a], [], false⟩
      | some (b, ws) =>
        let r := sweep as
        ⟨b :: r.items, a :: r.tried, ws ++ r.reports, r.complete⟩
    else
      let r := sweep as
      ⟨a :: r.items, r.tried, r.reports, r.complete⟩

/-- Nothing in the work raises. -/
def Quiet (xs : List α) : Prop := ∀ a ∈ xs, todo a → (act a).isSome

variable {todo act} {xs : List α}

theorem quiet_cons {a : α} :
    Quiet todo act (a :: xs) ↔ (todo a → (act a).isSome) ∧ Quiet todo act xs :=
  List.forall_mem_cons

theorem quiet_iff_filter : Quiet todo act xs ↔ ∀ a ∈ xs.filter todo, (act a).isSome := by
  simp only [Quiet, List.mem_filter, and_imp]

/-- A sweep goes to the end exactly when nothing raises. -/
theorem sweep_complete_iff : (sweep todo act xs).complete ↔ Quiet todo act xs := by
  induction xs with
  | nil => simp [sweep, Quiet]
  | cons a xs ih =>
    rw [quiet_cons, ← ih, sweep]
    split
    · next ha =>
      split
      · next hact => simp [ha, hact]
      · next b ws hact => simp [hact]
    · next ha => simp [ha]

/-- A quiet sweep tries each item of the work once, in order. -/
theorem sweep_tried (h : Quiet todo act xs) : (sweep todo act xs).tried = xs.filter todo := by
  induction xs with
  | nil => rfl
  | cons a xs ih =>
    obtain ⟨ha, hxs⟩ := quiet_cons.mp h
    rw [sweep]
    split
    · next htodo =>
      obtain ⟨⟨b, ws⟩, hact⟩ := Option.isSome_iff_exists.mp (ha htodo)
      rw [hact, List.filter_cons_of_pos htodo]
      exact congrArg (a :: ·) (ih hxs)
    · next htodo =>
      rw [List.filter_cons_of_neg htodo]
      exact ih hxs

/-- What is not work is left alone. -/
theorem sweep_other {i : ℕ} {a : α} (ha : xs[i]? = some a) (htodo : ¬ todo a) :
    (sweep todo act xs).items[i]? = some a := by
  induction xs generalizing i with
  | nil => simp at ha
  | cons c xs ih =>
    rw [sweep]
    cases i with
    | zero =>
      obtain rfl : c = a := by simpa using ha
      rw [if_neg htodo]
      rfl
    | succ i =>
      have ha' : xs[i]? = some a := by simpa using ha
      split
      · split
        · exact ha
        · simpa using ih ha'
      · simpa using ih ha'

/-- An item of the work is as `act` leaves it. -/
theorem sweep_item (h : Quiet todo act xs) {i : ℕ} {a : α} (ha : xs[i]? = some a)
    (htodo : todo a) : ∃ b ws, act a = some (b, ws) ∧ (sweep todo act xs).items[i]? = some b := by
  induction xs generalizing i with
  | nil => simp at ha
  | cons c xs ih =>
    obtain ⟨hc, hxs⟩ := quiet_cons.mp h
    cases i with
    | zero =>
      obtain rfl : c = a := by simpa using ha
      obtain ⟨⟨b, ws⟩, hact⟩ := Option.isSome_iff_exists.mp (hc htodo)
      refine ⟨b, ws, hact, ?_⟩
      rw [sweep, if_pos htodo, hact]
      rfl
    | succ i =>
      obtain ⟨b, ws, hact, hitem⟩ := ih hxs (show xs[i]? = some a by simpa using ha)
      refine ⟨b, ws, hact, ?_⟩
      rw [sweep]
      split
      · next hcw =>
        obtain ⟨⟨b', ws'⟩, hact'⟩ := Option.isSome_iff_exists.mp (hc hcw)
        rw [hact']
        simpa using hitem
      · simpa using hitem

/-- Every item comes from the one in its place. -/
theorem sweep_origin {i : ℕ} {b : α} (hb : (sweep todo act xs).items[i]? = some b) :
    xs[i]? = some b ∨ ∃ a ws, xs[i]? = some a ∧ todo a = true ∧ act a = some (b, ws) := by
  induction xs generalizing i with
  | nil => simp [sweep] at hb
  | cons c xs ih =>
    by_cases hc : todo c
    · cases hact : act c with
      | none =>
        simp only [sweep, if_pos hc, hact] at hb
        exact Or.inl hb
      | some r =>
        simp only [sweep, if_pos hc, hact] at hb
        cases i with
        | zero =>
          obtain rfl : r.1 = b := by simpa using hb
          exact Or.inr ⟨c, r.2, rfl, hc, hact⟩
        | succ i => exact ih (by simpa using hb)
    · simp only [sweep, if_neg hc] at hb
      cases i with
      | zero => exact Or.inl hb
      | succ i => exact ih (by simpa using hb)

/-- What every single step of a sweep keeps, of the items and of a state that takes the
reports, holds after it. -/
theorem sweep_invariant {τ : Type*} {I : List α → τ → Prop} {say : τ → ω → τ} {t : τ} (pre : List α)
    (hstep : ∀ pre a post b ws t, todo a = true → act a = some (b, ws) → I (pre ++ a :: post) t →
      I (pre ++ b :: post) (ws.foldl say t))
    (h : I (pre ++ xs) t) :
    I (pre ++ (sweep todo act xs).items) ((sweep todo act xs).reports.foldl say t) := by
  induction xs generalizing pre t with
  | nil => exact h
  | cons a xs ih =>
    by_cases ha : todo a = true
    · cases hact : act a with
      | none => simpa [sweep, ha, hact] using h
      | some r =>
        have hone := hstep pre a xs r.1 r.2 t ha hact h
        have hrest := ih (pre ++ [r.1]) (by simpa using hone)
        simpa [sweep, ha, hact] using hrest
    · have hrest := ih (pre ++ [a]) (by simpa using h)
      simpa [sweep, ha] using hrest

/-- A sweep keeps what is chosen by a property that no item of its work has or gets. -/
theorem sweep_filter {p : α → Bool}
    (hp : ∀ a b ws, todo a = true → act a = some (b, ws) → p a = false ∧ p b = false) :
    (sweep todo act xs).items.filter p = xs.filter p := by
  induction xs with
  | nil => rfl
  | cons c xs ih =>
    by_cases hc : todo c
    · cases hact : act c with
      | none => simp [sweep, hc, hact]
      | some r =>
        obtain ⟨hpc, hpr⟩ := hp c r.1 r.2 hc hact
        simp [sweep, hc, hact, hpc, hpr, ih]
    · simp [sweep, hc, List.filter_cons, ih]

/-- The item at which a sweep stops is work, and it stays as it was. -/
theorem sweep_stopped (h : (sweep todo act xs).complete = false) :
    ∃ (i : ℕ) (a : α), xs[i]? = some a ∧ todo a = true ∧ (sweep todo act xs).items[i]? = some a := by
  induction xs with
  | nil => cases h
  | cons c xs ih =>
    by_cases hc : todo c
    · cases hact : act c with
      | none =>
        refine ⟨0, c, rfl, hc, ?_⟩
        simp [sweep, hc, hact]
      | some r =>
        rw [sweep, if_pos hc, hact] at h ⊢
        obtain ⟨i, a, hi, ha, hitem⟩ := ih h
        exact ⟨i + 1, a, by simpa using hi, ha, by simpa using hitem⟩
    · rw [sweep, if_neg hc] at h ⊢
      obtain ⟨i, a, hi, ha, hitem⟩ := ih h
      exact ⟨i + 1, a, by simpa using hi, ha, by simpa using hitem⟩

end Sweep
