import Mathlib

/-!
# Computations that may fail part-way

A computation over a state that may stop with an error leaves the state as it was at that
point. Triples over such computations are those of `Std.Do`; here is what they say of one run.
-/
namespace Fallible

open Std.Do

variable {σ ε α : Type}

/-- What a computation comes to, and the state it leaves. -/
def after (x : ExceptT ε (StateM σ) α) (s : σ) : Except ε α × σ := x s

theorem after_bind_ok {β : Type} {x : ExceptT ε (StateM σ) α} {f : α → ExceptT ε (StateM σ) β} {s s' : σ}
    {a : α} (h : after x s = (.ok a, s')) : after (x >>= f) s = after (f a) s' := by
  have h' : x s = (.ok a, s') := h
  simp [after, bind, ExceptT.bind, ExceptT.mk, StateT.bind, ExceptT.bindCont, h']

theorem after_bind_error {β : Type} {x : ExceptT ε (StateM σ) α} {f : α → ExceptT ε (StateM σ) β}
    {s s' : σ} {err : ε} (h : after x s = (.error err, s')) : after (x >>= f) s = (.error err, s') := by
  have h' : x s = (.error err, s') := h
  simp [after, bind, ExceptT.bind, ExceptT.mk, StateT.bind, ExceptT.bindCont, h', pure, StateT.pure]

theorem after_tryCatch_ok {x : ExceptT ε (StateM σ) α} {f : ε → ExceptT ε (StateM σ) α} {s s' : σ}
    {a : α} (h : after x s = (.ok a, s')) : after (tryCatch x f) s = (.ok a, s') := by
  have h' : x s = (.ok a, s') := h
  simp [after, tryCatch, MonadExcept.tryCatch, tryCatchThe, MonadExceptOf.tryCatch, ExceptT.tryCatch,
    ExceptT.mk, bind, StateT.bind, h', pure, StateT.pure]

theorem after_tryCatch_error {x : ExceptT ε (StateM σ) α} {f : ε → ExceptT ε (StateM σ) α} {s s' : σ}
    {err : ε} (h : after x s = (.error err, s')) : after (tryCatch x f) s = after (f err) s' := by
  have h' : x s = (.error err, s') := h
  simp [after, tryCatch, MonadExcept.tryCatch, tryCatchThe, MonadExceptOf.tryCatch, ExceptT.tryCatch,
    ExceptT.mk, bind, StateT.bind, h']

/-- `Q` of a result and its state, `E` of the state an error leaves. -/
def Holds (Q : α → σ → Prop) (E : σ → Prop) (r : Except ε α × σ) : Prop :=
  match r.1 with
  | .ok a => Q a r.2
  | .error _ => E r.2

theorem of_triple {x : ExceptT ε (StateM σ) α} {P : σ → Prop} {Q : α → σ → Prop} {E : σ → Prop}
    (h : ⦃fun s => ⌜P s⌝⦄ x ⦃post⟨fun a s => ⌜Q a s⌝, fun _ s => ⌜E s⌝⟩⦄) {s : σ} (hs : P s) :
    Holds Q E (after x s) := by
  have h := h s hs
  simp only [WP.wp, PredTrans.apply, PredTrans.pushExcept, PredTrans.pushArg, pure, PredTrans.pure,
    StateT.run, ExceptT.run, Id.run] at h
  unfold Holds after
  cases hr : (x s).1 with
  | ok a => simpa [hr] using h
  | error e => simpa [hr] using h

/-- What a triple says of an error, and of the state it leaves. -/
theorem error_of_triple {x : ExceptT ε (StateM σ) α} {P : σ → Prop} {Q : α → σ → Prop} {E : ε → σ → Prop}
    (h : ⦃fun s => ⌜P s⌝⦄ x ⦃post⟨fun a s => ⌜Q a s⌝, fun err s => ⌜E err s⌝⟩⦄) {s s' : σ} {err : ε}
    (hs : P s) (hr : after x s = (.error err, s')) : E err s' := by
  have h := h s hs
  have hr' : x s = (.error err, s') := hr
  simp only [WP.wp, PredTrans.apply, PredTrans.pushExcept, PredTrans.pushArg, pure, PredTrans.pure,
    StateT.run, ExceptT.run, Id.run] at h
  simpa [hr'] using h

theorem ok_of_triple {x : ExceptT ε (StateM σ) α} {P : σ → Prop} {Q : α → σ → Prop} {E : ε → σ → Prop}
    (h : ⦃fun s => ⌜P s⌝⦄ x ⦃post⟨fun a s => ⌜Q a s⌝, fun err s => ⌜E err s⌝⟩⦄) {s s' : σ} {a : α}
    (hs : P s) (hr : after x s = (.ok a, s')) : Q a s' := by
  have h := h s hs
  have hr' : x s = (.ok a, s') := hr
  simp only [WP.wp, PredTrans.apply, PredTrans.pushExcept, PredTrans.pushArg, pure, PredTrans.pure,
    StateT.run, ExceptT.run, Id.run] at h
  simpa [hr'] using h

/-- A triple from what every run comes to. -/
theorem triple_of_after {x : ExceptT ε (StateM σ) α} {P : σ → Prop} {Q : α → σ → Prop} {E : ε → σ → Prop}
    (hok : ∀ s a s', P s → after x s = (.ok a, s') → Q a s')
    (herr : ∀ s err s', P s → after x s = (.error err, s') → E err s') :
    ⦃fun s => ⌜P s⌝⦄ x ⦃post⟨fun a s => ⌜Q a s⌝, fun err s => ⌜E err s⌝⟩⦄ := by
  intro s hs
  simp only [WP.wp, PredTrans.apply, PredTrans.pushExcept, PredTrans.pushArg, pure, PredTrans.pure,
    StateT.run, ExceptT.run, Id.run]
  cases hr : x s with
  | mk r s' =>
    cases r with
    | ok a => exact hok s a s' hs hr
    | error err => exact herr s err s' hs hr

/-- What holds of the state whether the computation fails or not. -/
theorem Holds.state {Q : α → σ → Prop} {E : σ → Prop} {r : Except ε α × σ} (h : Holds Q E r)
    (hQ : ∀ a s, Q a s → E s) : E r.2 := by
  unfold Holds at h
  cases hr : r.1 with
  | ok a =>
    rw [hr] at h
    exact hQ a r.2 h
  | error e =>
    rw [hr] at h
    exact h

end Fallible
