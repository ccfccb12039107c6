import Mathlib

/-!
# Open addressing

A table of slots, and for every key the order in which its slots are looked at. A key is put into the first free one,
and nothing is ever taken out: what a search for a key ends at is what was put in first under that key.
-/
namespace Probing

variable {κ ν : Type*}

/-- What the slots hold. -/
abbrev Slots (κ ν : Type*) := ℕ → Option (κ × ν)

/-! ## Room -/

section

variable {slots : Slots κ ν} {n m : ℕ}

/-- No more than `n` slots are taken. -/
def Taken (slots : Slots κ ν) (n : ℕ) : Prop := ∃ s : Finset ℕ, s.card ≤ n ∧ ∀ i, slots i ≠ none → i ∈ s

theorem taken_empty (h : ∀ i, slots i = none) : Taken slots 0 := ⟨∅, le_rfl, fun i hi => absurd (h i) hi⟩

theorem Taken.mono (h : Taken slots n) (hle : n ≤ m) : Taken slots m := by
  obtain ⟨s, hcard, hs⟩ := h
  exact ⟨s, hcard.trans hle, hs⟩

theorem Taken.insert (h : Taken slots n) (i : ℕ) (e : Option (κ × ν)) : Taken (Function.update slots i e) (n + 1) := by
  obtain ⟨s, hcard, hs⟩ := h
  refine ⟨Insert.insert i s, (Finset.card_insert_le i s).trans (by omega), fun j hj => ?_⟩
  rcases eq_or_ne j i with rfl | hne
  · exact Finset.mem_insert_self j s
  · rw [Function.update_of_ne hne] at hj
    exact Finset.mem_insert_of_mem (hs j hj)

/-- Where fewer are taken than there are slots, one is free. -/
theorem Taken.exists_free (h : Taken slots n) (hlt : n < m) : ∃ i < m, slots i = none := by
  obtain ⟨s, hcard, hs⟩ := h
  by_contra hall
  have hsub : Finset.range m ⊆ s := fun i hi => hs i fun hnone => hall ⟨i, Finset.mem_range.mp hi, hnone⟩
  have hle := Finset.card_le_card hsub
  rw [Finset.card_range] at hle
  omega

end

/-! ## The search -/

section

variable (order : κ → List ℕ)

/-- The first free slot for a key. -/
def free (slots : Slots κ ν) (k : κ) : Option ℕ := (order k).find? fun i => (slots i).isNone

/-- Where the search for a key ends. -/
def Stops (slots : Slots κ ν) (k : κ) (i : ℕ) : Prop := ∀ e ∈ slots i, e.1 = k

variable {order} {slots : Slots κ ν} {k : κ} {i : ℕ}

theorem stops_none (h : slots i = none) : Stops slots k i := by
  intro e he
  rw [h] at he
  exact absurd he.symm (Option.some_ne_none e)

theorem stops_some {e : κ × ν} (h : slots i = some e) : Stops slots k i ↔ e.1 = k := by
  rw [Stops, h]
  exact ⟨fun hall => hall e rfl, fun hk f hf => by rwa [← Option.some.inj hf]⟩

theorem free_eq_some : free order slots k = some i ↔
    slots i = none ∧ ∃ pre post, order k = pre ++ i :: post ∧ ∀ j ∈ pre, slots j ≠ none := by
  rw [free, List.find?_eq_some_iff_append]
  simp [Option.isSome_iff_ne_none]

theorem free_isSome (hi : i ∈ order k) (hfree : slots i = none) : ∃ j, free order slots k = some j :=
  Option.isSome_iff_exists.mp (List.find?_isSome.mpr ⟨i, hi, by rw [hfree]; rfl⟩)

/-- Filling a free slot leaves those that are taken. -/
theorem update_taken {j : ℕ} (hi : free order slots k = some i) (e : Option (κ × ν)) (hj : slots j ≠ none) :
    Function.update slots i e j = slots j := by
  refine Function.update_of_ne ?_ _ _
  rintro rfl
  exact hj (free_eq_some.mp hi).1

end

variable [DecidableEq κ] (order : κ → List ℕ)

instance (slots : Slots κ ν) (k : κ) (i : ℕ) : Decidable (Stops slots k i) :=
  inferInstanceAs (Decidable (∀ e ∈ slots i, e.1 = k))

/-- The slot of a key, or the free one where it belongs. -/
def find (slots : Slots κ ν) (k : κ) : Option ℕ := (order k).find? fun i => Stops slots k i

/-- What was put in first under a key. -/
def assoc (entries : List (κ × ν)) (k : κ) : Option ν := (entries.find? fun e => e.1 = k).map Prod.snd

/-- The slots hold `entries`: the first under each key is found, and there is nothing else. -/
structure Holds (slots : Slots κ ν) (entries : List (κ × ν)) : Prop where
  found : ∀ k v, assoc entries k = some v → ∃ i, find order slots k = some i ∧ slots i = some (k, v)
  known : ∀ i e, slots i = some e → assoc entries e.1 ≠ none

variable {order} {slots : Slots κ ν} {entries : List (κ × ν)} {k : κ} {v : ν} {i : ℕ}

theorem find_eq_some : find order slots k = some i ↔
    Stops slots k i ∧ ∃ pre post, order k = pre ++ i :: post ∧ ∀ j ∈ pre, ¬Stops slots k j := by
  rw [find, List.find?_eq_some_iff_append]
  simp

/-- A search ends where a slot is free. -/
theorem find_isSome (hi : i ∈ order k) (hfree : slots i = none) : ∃ j, find order slots k = some j :=
  Option.isSome_iff_exists.mp (List.find?_isSome.mpr ⟨i, hi, decide_eq_true (stops_none hfree)⟩)

/-- A search that ends at a free slot ends at the first one. -/
theorem free_of_find (hi : find order slots k = some i) (hslot : slots i = none) : free order slots k = some i := by
  obtain ⟨-, pre, post, horder, hpre⟩ := find_eq_some.mp hi
  exact free_eq_some.mpr ⟨hslot, pre, post, horder, fun j hj hnone => hpre j hj (stops_none hnone)⟩

/-! ## What is put in -/

theorem assoc_append (entries : List (κ × ν)) (e : κ × ν) (k : κ) :
    assoc (entries ++ [e]) k = (assoc entries k).or (if e.1 = k then some e.2 else none) := by
  rw [assoc, List.find?_append, assoc]
  cases hfind : entries.find? fun e => e.1 = k with
  | some f => rfl
  | none =>
    by_cases hk : e.1 = k
    · simp [hk]
    · simp [hk]

theorem assoc_append_ne_none {e : κ × ν} (h : assoc entries k ≠ none) : assoc (entries ++ [e]) k ≠ none := by
  rw [assoc_append]
  cases hassoc : assoc entries k with
  | none => exact absurd hassoc h
  | some v => exact Option.some_ne_none v

theorem holds_empty (h : ∀ i, slots i = none) : Holds order slots [] := by
  refine ⟨fun k v hv => absurd hv.symm (Option.some_ne_none v), fun i e he => ?_⟩
  rw [h] at he
  exact absurd he.symm (Option.some_ne_none e)

/-- What a search finds. -/
theorem Holds.find (h : Holds order slots entries) (hi : find order slots k = some i) :
    slots i = (assoc entries k).map fun v => (k, v) := by
  cases hassoc : assoc entries k with
  | some v =>
    obtain ⟨j, hj, hslot⟩ := h.found k v hassoc
    rw [hi] at hj
    rw [Option.some.inj hj, hslot]
    rfl
  | none =>
    cases hslot : slots i with
    | none => rfl
    | some e =>
      have hk : e.1 = k := (stops_some hslot).mp (find_eq_some.mp hi).1
      exact absurd (by rw [hk, hassoc]) (h.known i e hslot)

/-- A key that is there stays as it is. -/
theorem Holds.again (h : Holds order slots entries) (hi : Probing.find order slots k = some i) (hslot : slots i ≠ none) (v : ν) :
    Holds order slots (entries ++ [(k, v)]) := by
  have hfind := h.find hi
  refine ⟨fun k' v' hv' => ?_, fun j e he => assoc_append_ne_none (h.known j e he)⟩
  rw [assoc_append] at hv'
  cases hassoc : assoc entries k' with
  | some u =>
    rw [hassoc] at hv'
    obtain rfl : u = v' := Option.some.inj hv'
    exact h.found k' u hassoc
  | none =>
    by_cases hk : k = k'
    · rw [hk, hassoc] at hfind
      exact absurd hfind hslot
    · rw [hassoc, if_neg hk] at hv'
      exact absurd hv'.symm (Option.some_ne_none v')

/-- What is found stays found: no slot on the way to it is free. -/
theorem found_update {k' : κ} {j : ℕ} (hi : free order slots k = some i) (e : Option (κ × ν))
    (hj : Probing.find order slots k' = some j) (hslot : slots j ≠ none) :
    Probing.find order (Function.update slots i e) k' = some j := by
  obtain ⟨hstop, pre, post, horder, hpre⟩ := find_eq_some.mp hj
  refine find_eq_some.mpr ⟨?_, pre, post, horder, fun a ha hstops => ?_⟩
  · rwa [Stops, update_taken hi e hslot]
  · have hane : slots a ≠ none := fun hnone => hpre a ha (stops_none hnone)
    rw [Stops, update_taken hi e hane] at hstops
    exact hpre a ha hstops

/-- A key that was not there is found where it is put. -/
theorem Holds.find_update (h : Holds order slots entries) (hi : free order slots k = some i) (v : ν) (hassoc : assoc entries k = none) :
    Probing.find order (Function.update slots i (some (k, v))) k = some i := by
  obtain ⟨-, pre, post, horder, hpre⟩ := free_eq_some.mp hi
  have hself : Function.update slots i (some (k, v)) i = some (k, v) := Function.update_self i _ slots
  refine find_eq_some.mpr ⟨(stops_some hself).mpr rfl, pre, post, horder, fun a ha hstops => ?_⟩
  obtain ⟨e, he⟩ := Option.ne_none_iff_exists'.mp (hpre a ha)
  rw [Stops, update_taken hi _ (hpre a ha)] at hstops
  have hk : e.1 = k := hstops e he
  exact h.known a e he (hk ▸ hassoc)

/-- A key is put into its first free slot. -/
theorem Holds.insert (h : Holds order slots entries) (hi : free order slots k = some i) (v : ν) :
    Holds order (Function.update slots i (some (k, v))) (entries ++ [(k, v)]) := by
  refine ⟨fun k' v' hv' => ?_, fun j e he => ?_⟩
  · rw [assoc_append] at hv'
    cases hassoc : assoc entries k' with
    | some u =>
      rw [hassoc] at hv'
      obtain rfl : u = v' := Option.some.inj hv'
      obtain ⟨j, hj, hju⟩ := h.found k' u hassoc
      have hjne : slots j ≠ none := by
        rw [hju]
        exact Option.some_ne_none _
      exact ⟨j, found_update hi _ hj hjne, (update_taken hi _ hjne).trans hju⟩
    | none =>
      by_cases hk : k = k'
      · subst hk
        rw [hassoc, if_pos rfl] at hv'
        obtain rfl : v = v' := Option.some.inj hv'
        exact ⟨i, h.find_update hi v hassoc, Function.update_self _ _ _⟩
      · rw [hassoc, if_neg hk] at hv'
        exact absurd hv'.symm (Option.some_ne_none v')
  · rcases eq_or_ne j i with rfl | hne
    · rw [Function.update_self] at he
      rw [← Option.some.inj he, assoc_append, if_pos rfl]
      cases assoc entries k with
      | none => exact Option.some_ne_none v
      | some u => exact Option.some_ne_none u
    · rw [Function.update_of_ne hne] at he
      exact assoc_append_ne_none (h.known j e he)

end Probing
