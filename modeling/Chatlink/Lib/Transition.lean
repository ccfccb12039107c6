import Mathlib

/-!
# Runs of a guarded step function

A system is a partial step function over inputs. Runs are considered under a
condition on each step, read in the state before it: `Reachable step C s₀ s` says
that `s` is reached from `s₀` by steps that all meet `C`. The condition that always
holds gives the plain runs.
-/
namespace Transition

variable {σ α : Type*} {step : σ → α → Option σ} {C D : σ → α → Prop} {s₀ s : σ}

inductive Reachable (step : σ → α → Option σ) (C : σ → α → Prop) (s₀ : σ) : σ → Prop
  | refl : Reachable step C s₀ s₀
  | tail {s s' : σ} (a : α) : Reachable step C s₀ s → C s a → step s a = some s' →
      Reachable step C s₀ s'

/-- Every input is allowed in every state. -/
def Libre : σ → α → Prop := fun _ _ => True

namespace Reachable

/-- What holds at the start and is kept by every admissible step holds throughout. -/
theorem invariant {I : σ → Prop} (h : Reachable step C s₀ s) (h0 : I s₀)
    (hstep : ∀ s a s', C s a → step s a = some s' → I s → I s') : I s := by
  induction h with
  | refl => exact h0
  | tail a _ hc hs ih => exact hstep _ a _ hc hs ih

/-- The same with an invariant that is already known to hold throughout. -/
theorem invariant_with {I J : σ → Prop} (h : Reachable step C s₀ s)
    (hJ : ∀ s, Reachable step C s₀ s → J s) (h0 : I s₀)
    (hstep : ∀ s a s', J s → C s a → step s a = some s' → I s → I s') : I s := by
  induction h with
  | refl => exact h0
  | tail a hr hc hs ih => exact hstep _ a _ (hJ _ hr) hc hs ih

theorem mono (h : Reachable step C s₀ s) (hCD : ∀ s a, C s a → D s a) :
    Reachable step D s₀ s := by
  induction h with
  | refl => exact .refl
  | tail a _ hc hs ih => exact .tail a ih (hCD _ _ hc) hs

end Reachable

/-- Replays a list of inputs, checking the condition before each step. -/
@[grind =] def replay (step : σ → α → Option σ) (c : σ → α → Bool) : σ → List α → Option σ
  | s, [] => some s
  | s, a :: as => if c s a then (step s a).bind fun s' => replay step c s' as else none

theorem reachable_of_replay {c : σ → α → Bool} (as : List α) {s s' : σ}
    (h : replay step c s as = some s') (hs : Reachable step (fun s a => c s a = true) s₀ s) :
    Reachable step (fun s a => c s a = true) s₀ s' := by
  induction as generalizing s with
  | nil =>
    obtain rfl : s = s' := Option.some.inj h
    exact hs
  | cons a as ih =>
    simp only [replay] at h
    split at h
    · next hca =>
      obtain ⟨s₁, hs₁, hrest⟩ := Option.bind_eq_some_iff.mp h
      exact ih hrest (.tail a hs hca hs₁)
    · cases h

/-- The end of a replay that goes through. -/
theorem reachable_get {c : σ → α → Bool} (as : List α) (h : (replay step c s₀ as).isSome) :
    Reachable step (fun s a => c s a = true) s₀ ((replay step c s₀ as).get h) :=
  reachable_of_replay as (Option.some_get h).symm .refl

/-- A replay without conditions. -/
@[grind =] def run (step : σ → α → Option σ) (s : σ) (as : List α) : Option σ :=
  replay step (fun _ _ => true) s as

theorem reachable_run (as : List α) (h : (run step s₀ as).isSome) :
    Reachable step Libre s₀ ((run step s₀ as).get h) :=
  (reachable_get as h).mono fun _ _ _ => trivial

theorem replay_cons_eq_some {c : σ → α → Bool} {a : α} {as : List α} {t : σ} :
    replay step c s (a :: as) = some t ↔
      ∃ s', c s a = true ∧ step s a = some s' ∧ replay step c s' as = some t := by
  cases hca : c s a <;> simp [replay, hca, Option.bind_eq_some_iff]

theorem replay_append_eq_some {c : σ → α → Bool} {as bs : List α} {t : σ} :
    replay step c s (as ++ bs) = some t ↔
      ∃ u, replay step c s as = some u ∧ replay step c u bs = some t := by
  induction as generalizing s with
  | nil => simp [replay]
  | cons a as ih => simp only [List.cons_append, replay_cons_eq_some, ih]; grind

/-- A replay under a condition is a run. -/
theorem run_of_replay {c : σ → α → Bool} {as : List α} {t : σ} (h : replay step c s as = some t) :
    run step s as = some t := by
  induction as generalizing s with
  | nil => exact h
  | cons a as ih =>
    obtain ⟨s', -, hs', hrest⟩ := replay_cons_eq_some.mp h
    exact replay_cons_eq_some.mpr ⟨s', rfl, hs', ih hrest⟩

theorem run_cons_eq_some {a : α} {as : List α} {t : σ} :
    run step s (a :: as) = some t ↔ ∃ s', step s a = some s' ∧ run step s' as = some t := by
  simp [run, replay, Option.bind_eq_some_iff]

theorem run_append_eq_some {as bs : List α} {t : σ} :
    run step s (as ++ bs) = some t ↔ ∃ u, run step s as = some u ∧ run step u bs = some t :=
  replay_append_eq_some

/-- What every step of a run keeps holds at its end. -/
theorem run_invariant {I : σ → Prop} {as : List α} {t : σ} (h : run step s as = some t) (hs : I s)
    (hstep : ∀ s a s', a ∈ as → step s a = some s' → I s → I s') : I t := by
  induction as generalizing s with
  | nil =>
    obtain rfl : s = t := Option.some.inj h
    exact hs
  | cons a as ih =>
    obtain ⟨s', hs', hrest⟩ := run_cons_eq_some.mp h
    refine ih hrest (hstep s a s' List.mem_cons_self hs' hs) ?_
    intro u b u' hb
    exact hstep u b u' (List.mem_cons_of_mem a hb)

/-- A run is no longer than the measure it starts with, if every step lowers the measure but
those that are paid for, which raise it by at most one. -/
theorem run_length_le {I : σ → Prop} {M : σ → ℕ} {paid : α → Bool} {as : List α} {t : σ}
    (h : run step s as = some t) (hs : I s)
    (hI : ∀ s a s', step s a = some s' → I s → I s')
    (hfree : ∀ s a s', a ∈ as → I s → step s a = some s' → paid a = false → M s' < M s)
    (hpaid : ∀ s a s', I s → step s a = some s' → paid a = true → M s' ≤ M s + 1) :
    as.length + M t ≤ M s + 2 * as.countP paid := by
  induction as generalizing s with
  | nil =>
    obtain rfl : s = t := Option.some.inj h
    simp
  | cons a as ih =>
    obtain ⟨s', hs', hrest⟩ := run_cons_eq_some.mp h
    have htail := ih hrest (hI s a s' hs' hs) fun u b u' hb => hfree u b u' (List.mem_cons_of_mem a hb)
    rw [List.length_cons, List.countP_cons]
    cases hp : paid a with
    | false =>
      have hless := hfree s a s' List.mem_cons_self hs hs' hp
      simp only [Bool.false_eq_true, if_false]
      omega
    | true =>
      have hmore := hpaid s a s' hs hs' hp
      simp only [if_true]
      omega

/-- A run whose inputs are allowed everywhere goes on from a reachable state. -/
theorem Reachable.run {as : List α} {t : σ} (hs : Reachable step C s₀ s)
    (hC : ∀ a ∈ as, ∀ u, C u a) (h : run step s as = some t) : Reachable step C s₀ t :=
  run_invariant h hs fun _ a _ ha hstep hr => .tail a hr (hC a ha _) hstep

/-- An exact condition on the steps. If `P` holds wherever steps that meet `c` lead and one
step that does not meet it leads to a state without `P`, the runs that keep `P` throughout
are those whose steps all meet `c`. -/
theorem prefixes_iff_replay {c : σ → α → Bool} {P : σ → Prop}
    (hgood : ∀ s, Reachable step (fun s a => c s a = true) s₀ s → P s)
    (hbad : ∀ s a s', Reachable step (fun s a => c s a = true) s₀ s → step s a = some s' →
      c s a = false → ¬P s')
    (as : List α) {s s' : σ} (hs : Reachable step (fun s a => c s a = true) s₀ s)
    (h : run step s as = some s') :
    (∀ xs t, xs <+: as → run step s xs = some t → P t) ↔ (replay step c s as).isSome := by
  induction as generalizing s with
  | nil =>
    refine iff_of_true (fun xs t hx ht => ?_) rfl
    obtain rfl := List.prefix_nil.mp hx
    obtain rfl : s = t := Option.some.inj ht
    exact hgood s hs
  | cons a as ih =>
    obtain ⟨s₁, hs₁, hrest⟩ := Option.bind_eq_some_iff.mp h
    have hcons (xs : List α) : run step s (a :: xs) = run step s₁ xs := by
      simp [run, replay, hs₁]
    cases hca : c s a with
    | false =>
      refine iff_of_false (fun hall => ?_) (by simp [replay, hca])
      have hone : run step s [a] = some s₁ := hcons []
      exact hbad s a s₁ hs hs₁ hca (hall [a] s₁ (List.prefix_append [a] as) hone)
    | true =>
      have hreplay : replay step c s (a :: as) = replay step c s₁ as := by
        simp [replay, hca, hs₁]
      rw [hreplay, ← ih (.tail a hs hca hs₁) hrest]
      constructor
      · intro hall xs t hx ht
        exact hall (a :: xs) t ((List.prefix_cons_inj a).mpr hx) ((hcons xs).trans ht)
      · intro hall xs t hx ht
        rcases List.prefix_cons_iff.mp hx with rfl | ⟨xs, rfl, hx'⟩
        · obtain rfl : s = t := Option.some.inj ht
          exact hgood s hs
        · exact hall xs t hx' ((hcons xs).symm.trans ht)

end Transition
