import Mathlib

/-!
# Byte-pair encoding

Of all neighbours that merge, those of the lowest rank do first, the leftmost of these before the others, until no
neighbours merge.
-/
namespace Bpe

variable {α : Type*} (merge : α → α → Option (ℕ × α))

/-- The lowest rank of two neighbours. -/
def lowest : List α → Option ℕ
  | a :: b :: xs =>
    match merge a b, lowest (b :: xs) with
    | some r, some s => some (min r.1 s)
    | some r, none => some r.1
    | none, s => s
  | _ => none

/-- Merges the first neighbours of rank `r`. -/
def mergeFirst (r : ℕ) : List α → List α
  | a :: b :: xs =>
    match merge a b with
    | some m => if m.1 = r then m.2 :: xs else a :: mergeFirst r (b :: xs)
    | none => a :: mergeFirst r (b :: xs)
  | xs => xs

def step (xs : List α) : List α :=
  match lowest merge xs with
  | some r => mergeFirst merge r xs
  | none => xs

/-- A merge leaves one token less, so as many steps as there are tokens are enough. -/
def bpe (xs : List α) : List α := (step merge)^[xs.length] xs

variable {merge}

/-- Neighbours that do not merge at rank `r` or below. -/
def Above (merge : α → α → Option (ℕ × α)) (r : ℕ) (a b : α) : Prop := ∀ m, merge a b = some m → r < m.1

/-- Neighbours that do not merge below rank `r`. -/
def NotBelow (merge : α → α → Option (ℕ × α)) (r : ℕ) (a b : α) : Prop := ∀ m, merge a b = some m → r ≤ m.1

theorem lowest_eq_none {xs : List α} : lowest merge xs = none ↔ xs.IsChain fun a b => merge a b = none := by
  induction xs with
  | nil => simp [lowest]
  | cons a xs ih =>
    cases xs with
    | nil => simp [lowest]
    | cons b xs =>
      rw [List.isChain_cons_cons, ← ih, lowest]
      cases hm : merge a b with
      | none => simp
      | some m => cases lowest merge (b :: xs) <;> simp

theorem le_of_lowest {xs : List α} {r : ℕ} (h : xs.IsChain (NotBelow merge r)) : ∀ s, lowest merge xs = some s → r ≤ s := by
  induction xs with
  | nil => simp [lowest]
  | cons a xs ih =>
    cases xs with
    | nil => simp [lowest]
    | cons b xs =>
      obtain ⟨hab, hxs⟩ := List.isChain_cons_cons.mp h
      intro s hs
      rw [lowest] at hs
      cases hm : merge a b with
      | none =>
        rw [hm] at hs
        exact ih hxs s hs
      | some m =>
        have hrm := hab m hm
        cases hl : lowest merge (b :: xs) with
        | none =>
          rw [hm, hl] at hs
          rwa [← Option.some.inj hs]
        | some l =>
          have hrl := ih hxs l hl
          rw [hm, hl] at hs
          rw [← Option.some.inj hs]
          exact le_min hrm hrl

theorem Above.notBelow {r : ℕ} {a b : α} (h : Above merge r a b) : NotBelow merge r a b := fun m hm => (h m hm).le

theorem above_of_none {r : ℕ} {a b : α} (h : merge a b = none) : Above merge r a b :=
  fun m hm => absurd (h.symm.trans hm) (Option.some_ne_none m).symm

theorem rel_head {R : α → α → Prop} {a b x : α} {pre rest tail : List α} (h : (a :: (pre ++ [x])).IsChain R)
    (hbt : pre ++ x :: rest = b :: tail) : R a b := by
  cases pre with
  | nil =>
    obtain rfl : x = b := (List.cons.inj hbt).1
    exact (List.isChain_cons_cons.mp h).1
  | cons c pre =>
    obtain rfl : c = b := (List.cons.inj hbt).1
    exact (List.isChain_cons_cons.mp h).1

/-- Where the first neighbours of the lowest rank stand. -/
theorem lowest_of {pre rest : List α} {x y : α} {m : ℕ × α} (hm : merge x y = some m)
    (hpre : (pre ++ [x]).IsChain (Above merge m.1)) (hrest : (y :: rest).IsChain (NotBelow merge m.1)) :
    lowest merge (pre ++ x :: y :: rest) = some m.1 := by
  induction pre with
  | nil =>
    rw [List.nil_append, lowest, hm]
    cases hl : lowest merge (y :: rest) with
    | none => rfl
    | some l => simp [le_of_lowest hrest l hl]
  | cons a pre ih =>
    obtain ⟨b, tail, hbt⟩ : ∃ b tail, pre ++ x :: y :: rest = b :: tail := List.exists_cons_of_ne_nil (by simp)
    have hab : Above merge m.1 a b := rel_head hpre hbt
    have htail := ih hpre.tail
    rw [hbt] at htail
    rw [List.cons_append, hbt, lowest, htail]
    cases hab' : merge a b with
    | none => rfl
    | some s => simp [(hab s hab').le]

theorem mergeFirst_of {pre rest : List α} {x y : α} {m : ℕ × α} (hm : merge x y = some m)
    (hpre : (pre ++ [x]).IsChain (Above merge m.1)) :
    mergeFirst merge m.1 (pre ++ x :: y :: rest) = pre ++ m.2 :: rest := by
  induction pre with
  | nil => simp [mergeFirst, hm]
  | cons a pre ih =>
    obtain ⟨b, tail, hbt⟩ : ∃ b tail, pre ++ x :: y :: rest = b :: tail := List.exists_cons_of_ne_nil (by simp)
    have hab : Above merge m.1 a b := rel_head hpre hbt
    have htail := ih hpre.tail
    rw [hbt] at htail
    rw [List.cons_append, hbt, mergeFirst, htail]
    cases hab' : merge a b with
    | none => rfl
    | some s => simp [(hab s hab').ne']

theorem step_of {pre rest : List α} {x y : α} {m : ℕ × α} (hm : merge x y = some m)
    (hpre : (pre ++ [x]).IsChain (Above merge m.1)) (hrest : (y :: rest).IsChain (NotBelow merge m.1)) :
    step merge (pre ++ x :: y :: rest) = pre ++ m.2 :: rest := by
  rw [step, lowest_of hm hpre hrest]
  exact mergeFirst_of hm hpre

theorem step_of_none {xs : List α} (h : lowest merge xs = none) : step merge xs = xs := by rw [step, h]

theorem bpe_of_none {xs : List α} (h : lowest merge xs = none) : bpe merge xs = xs :=
  Function.iterate_fixed (step_of_none h) xs.length

theorem bpe_of_step {xs ys : List α} (h : step merge xs = ys) (hlen : ys.length + 1 = xs.length) :
    bpe merge xs = bpe merge ys := by
  rw [bpe, ← hlen, Function.iterate_succ_apply, h, bpe]

/-! ## What merging keeps -/

/-- What every merge keeps, the whole keeps. -/
theorem bpe_induction {P : List α → Prop} (hstep : ∀ r xs, P xs → P (mergeFirst merge r xs)) {xs : List α} (h : P xs) :
    P (bpe merge xs) := by
  have hone : ∀ xs, P xs → P (step merge xs) := by
    intro xs hxs
    rw [step]
    cases lowest merge xs with
    | none => exact hxs
    | some r => exact hstep r xs hxs
  have hall : ∀ n xs, P xs → P ((step merge)^[n] xs) := by
    intro n
    induction n with
    | zero => exact fun xs hxs => hxs
    | succ n ih => exact fun xs hxs => ih _ (hone xs hxs)
  exact hall xs.length xs h

theorem mergeFirst_flatMap {β : Type*} {f : α → List β} (hf : ∀ a b m, merge a b = some m → f m.2 = f a ++ f b) (r : ℕ)
    (xs : List α) : (mergeFirst merge r xs).flatMap f = xs.flatMap f := by
  induction xs with
  | nil => rfl
  | cons a xs ih =>
    cases xs with
    | nil => rfl
    | cons b xs =>
      rw [mergeFirst]
      cases hm : merge a b with
      | none =>
        rw [List.flatMap_cons, ih]
        rfl
      | some m =>
        dsimp only
        split_ifs
        · rw [List.flatMap_cons, List.flatMap_cons, List.flatMap_cons, hf a b m hm, List.append_assoc]
        · rw [List.flatMap_cons, ih]
          rfl

/-- Where a merge is spelled as its two tokens are, a row is spelled the same before and after. -/
theorem bpe_flatMap {β : Type*} {f : α → List β} (hf : ∀ a b m, merge a b = some m → f m.2 = f a ++ f b) (xs : List α) :
    (bpe merge xs).flatMap f = xs.flatMap f :=
  bpe_induction (P := fun ys => ys.flatMap f = xs.flatMap f) (fun r ys h => (mergeFirst_flatMap hf r ys).trans h) rfl

theorem mergeFirst_forall {P : α → Prop} (hmerge : ∀ a b m, merge a b = some m → P m.2) {r : ℕ} {xs : List α}
    (h : ∀ a ∈ xs, P a) : ∀ a ∈ mergeFirst merge r xs, P a := by
  induction xs with
  | nil => exact h
  | cons a xs ih =>
    cases xs with
    | nil => exact h
    | cons b xs =>
      obtain ⟨ha, hxs⟩ := List.forall_mem_cons.mp h
      rw [mergeFirst]
      cases hm : merge a b with
      | none => exact List.forall_mem_cons.mpr ⟨ha, ih hxs⟩
      | some m =>
        dsimp only
        split_ifs
        · exact List.forall_mem_cons.mpr ⟨hmerge a b m hm, (List.forall_mem_cons.mp hxs).2⟩
        · exact List.forall_mem_cons.mpr ⟨ha, ih hxs⟩

/-- Every token of a row is one that was there or that a merge makes. -/
theorem bpe_forall {P : α → Prop} (hmerge : ∀ a b m, merge a b = some m → P m.2) {xs : List α} (h : ∀ a ∈ xs, P a) :
    ∀ a ∈ bpe merge xs, P a :=
  bpe_induction (P := fun ys => ∀ a ∈ ys, P a) (fun _ _ => mergeFirst_forall hmerge) h

/-! ## Rows that do not merge with one another -/

theorem isChain_notBelow {xs : List α} {r : ℕ} (h : ∀ s, lowest merge xs = some s → r ≤ s) : xs.IsChain (NotBelow merge r) := by
  induction xs with
  | nil => exact .nil
  | cons a xs ih =>
    cases xs with
    | nil => exact .singleton a
    | cons b xs =>
      rw [lowest] at h
      refine List.isChain_cons_cons.mpr ⟨fun m hm => ?_, ih fun s hs => ?_⟩
      · rw [hm] at h
        cases hl : lowest merge (b :: xs) with
        | none => exact h m.1 (by rw [hl])
        | some l => exact (h (min m.1 l) (by rw [hl])).trans (min_le_left _ _)
      · rw [hs] at h
        cases hm : merge a b with
        | none => exact h s (by rw [hm])
        | some m => exact (h (min m.1 s) (by rw [hm])).trans (min_le_right _ _)

theorem isChain_above {xs : List α} {r : ℕ} (h : ∀ s, lowest merge xs = some s → r < s) : xs.IsChain (Above merge r) :=
  (isChain_notBelow (r := r + 1) h).imp fun _ _ hab m hm => hab m hm

/-- The neighbours that a step merges. -/
theorem exists_of_lowest {xs : List α} {r : ℕ} (h : lowest merge xs = some r) :
    ∃ pre x y rest m, xs = pre ++ x :: y :: rest ∧ merge x y = some m ∧ m.1 = r ∧ (pre ++ [x]).IsChain (Above merge r) ∧
      (y :: rest).IsChain (NotBelow merge r) := by
  induction xs with
  | nil => cases h
  | cons a xs ih =>
    cases xs with
    | nil => cases h
    | cons b xs =>
      have hle : ∀ s, lowest merge (b :: xs) = some s → r ≤ s := by
        intro s hs
        rw [lowest, hs] at h
        cases hm : merge a b with
        | none =>
          rw [hm] at h
          exact (Option.some.inj h).ge
        | some m =>
          rw [hm] at h
          rw [← Option.some.inj h]
          exact min_le_right _ _
      by_cases hfirst : ∃ m, merge a b = some m ∧ m.1 = r
      · obtain ⟨m, hm, hr⟩ := hfirst
        exact ⟨[], a, b, xs, m, rfl, hm, hr, .singleton a, isChain_notBelow hle⟩
      · have habove : Above merge r a b := by
          intro m hm
          have hrm : r ≤ m.1 := by
            rw [lowest, hm] at h
            cases hl : lowest merge (b :: xs) with
            | none =>
              rw [hl] at h
              exact (Option.some.inj h).ge
            | some l =>
              rw [hl] at h
              rw [← Option.some.inj h]
              exact min_le_left _ _
          exact lt_of_le_of_ne hrm fun hr => hfirst ⟨m, hm, hr.symm⟩
        have hrest : lowest merge (b :: xs) = some r := by
          rw [lowest] at h
          cases hm : merge a b with
          | none => rwa [hm] at h
          | some m =>
            cases hl : lowest merge (b :: xs) with
            | none =>
              rw [hm, hl] at h
              exact absurd (Option.some.inj h) (habove m hm).ne'
            | some l =>
              rw [hm, hl] at h
              have hmin : min m.1 l = r := Option.some.inj h
              have := habove m hm
              rw [show l = r by omega]
        obtain ⟨pre, x, y, rest, m, hxs, hm, hr, hpre, hchain⟩ := ih hrest
        refine ⟨a :: pre, x, y, rest, m, by rw [hxs, List.cons_append], hm, hr, ?_, hchain⟩
        obtain ⟨c, tail, hc⟩ : ∃ c tail, pre ++ [x] = c :: tail := List.exists_cons_of_ne_nil (by simp)
        rw [List.cons_append, hc]
        rw [hc] at hpre
        refine List.isChain_cons_cons.mpr ⟨?_, hpre⟩
        obtain rfl : b = c := by
          cases pre with
          | nil => exact (List.cons.inj hxs).1.trans (List.cons.inj hc).1
          | cons d pre => exact (List.cons.inj hxs).1.trans (List.cons.inj hc).1
        exact habove

section

variable {E S : α → Prop} (hE : ∀ a b m, merge a b = some m → E b → E m.2) (hS : ∀ a b m, merge a b = some m → S a → S m.2)
  (hnone : ∀ a b, E a → S b → merge a b = none)

include hE in
theorem last_of_merge {pre rest : List α} {x y : α} {m : ℕ × α} (hm : merge x y = some m)
    (h : ∀ a ∈ (pre ++ x :: y :: rest).getLast?, E a) : ∀ a ∈ (pre ++ m.2 :: rest).getLast?, E a := by
  cases rest with
  | nil =>
    have hy : E y := h y (by simp)
    intro a ha
    rw [List.getLast?_append_cons, List.getLast?_singleton] at ha
    rw [← Option.some.inj ha]
    exact hE x y m hm hy
  | cons c rest =>
    intro a ha
    refine h a ?_
    rw [List.getLast?_append_cons] at ha ⊢
    rwa [List.getLast?_cons_cons, List.getLast?_cons_cons]

include hS in
theorem head_of_merge {pre rest : List α} {x y : α} {m : ℕ × α} (hm : merge x y = some m)
    (h : ∀ a ∈ (pre ++ x :: y :: rest).head?, S a) : ∀ a ∈ (pre ++ m.2 :: rest).head?, S a := by
  cases pre with
  | nil =>
    have hx : S x := h x rfl
    intro a ha
    rw [← Option.some.inj ha]
    exact hS x y m hm hx
  | cons c pre => exact fun a ha => h a ha

include hE hS hnone in
/-- Rows are merged apart where what the one can end with never merges with what the other can begin with. -/
theorem bpe_append {xs ys : List α} (hxs : ∀ a ∈ xs.getLast?, E a) (hys : ∀ a ∈ ys.head?, S a) :
    bpe merge (xs ++ ys) = bpe merge xs ++ bpe merge ys := by
  induction hn : xs.length + ys.length generalizing xs ys with
  | zero =>
    obtain rfl := List.length_eq_zero_iff.mp (show xs.length = 0 by omega)
    rfl
  | succ n ih =>
    have hjoin : ∀ a ∈ xs.getLast?, ∀ b ∈ ys.head?, merge a b = none := fun a ha b hb => hnone a b (hxs a ha) (hys b hb)
    by_cases hleft : ∃ r, lowest merge xs = some r ∧ ∀ s, lowest merge ys = some s → r ≤ s
    · -- the first row has the next merge
      obtain ⟨r, hr, hle⟩ := hleft
      obtain ⟨pre, x, y, rest, m, rfl, hm, rfl, hpre, hrest⟩ := exists_of_lowest hr
      have hstep := step_of hm hpre hrest
      have hwhole : step merge (pre ++ x :: y :: (rest ++ ys)) = pre ++ m.2 :: (rest ++ ys) := by
        refine step_of hm hpre ?_
        rw [← List.cons_append]
        refine List.isChain_append.mpr ⟨hrest, isChain_notBelow hle, fun a ha b hb => (above_of_none (hjoin a ?_ b hb)).notBelow⟩
        rwa [List.getLast?_append_cons, List.getLast?_cons_cons]
      simp only [List.length_append, List.length_cons] at hn
      have hih := ih (last_of_merge hE hm hxs) hys (by simp only [List.length_append, List.length_cons]; omega)
      rw [bpe_of_step hstep (by simp only [List.length_append, List.length_cons]; omega), ← hih, List.append_assoc,
        List.append_assoc]
      exact bpe_of_step hwhole (by simp only [List.length_append, List.length_cons]; omega)
    · cases hright : lowest merge ys with
      | none =>
        -- nothing merges
        have hnever : lowest merge xs = none := by
          cases hl : lowest merge xs with
          | none => rfl
          | some r => exact absurd ⟨r, hl, fun s hs => absurd (hright.symm.trans hs) (Option.some_ne_none s).symm⟩ hleft
        have hall : lowest merge (xs ++ ys) = none :=
          lowest_eq_none.mpr (List.isChain_append.mpr ⟨lowest_eq_none.mp hnever, lowest_eq_none.mp hright, hjoin⟩)
        rw [bpe_of_none hall, bpe_of_none hnever, bpe_of_none hright]
      | some r =>
        have hlt : ∀ s, lowest merge xs = some s → r < s := by
          intro s hs
          by_contra hsr
          refine hleft ⟨s, hs, fun u hu => ?_⟩
          rw [hright] at hu
          rw [← Option.some.inj hu]
          omega
        obtain ⟨pre, x, y, rest, m, rfl, hm, rfl, hpre, hrest⟩ := exists_of_lowest hright
        have hstep := step_of hm hpre hrest
        have hwhole : step merge ((xs ++ pre) ++ x :: y :: rest) = (xs ++ pre) ++ m.2 :: rest := by
          refine step_of hm ?_ hrest
          rw [List.append_assoc]
          refine List.isChain_append.mpr ⟨isChain_above hlt, hpre, fun a ha b hb => above_of_none (hjoin a ha b ?_)⟩
          cases pre with
          | nil => exact hb
          | cons c pre => exact hb
        simp only [List.length_append, List.length_cons] at hn
        have hih := ih hxs (head_of_merge hS hm hys) (by simp only [List.length_append, List.length_cons]; omega)
        rw [bpe_of_step hstep (by simp only [List.length_append, List.length_cons]; omega), ← hih, ← List.append_assoc,
          ← List.append_assoc]
        exact bpe_of_step hwhole (by simp only [List.length_append, List.length_cons]; omega)

end

end Bpe
