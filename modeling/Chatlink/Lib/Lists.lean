import Mathlib

/-!
# Lists read through a partial view

A heterogeneous work list is read through partial projections `f : α → Option β`
(`List.filterMap`). The lemmas say how such a view changes when one entry is
erased, and how a fold behaves under an invariant and along its prefixes.
-/
namespace Lists

variable {α β σ : Type*}

/-- Erasing an entry outside the view leaves the view alone. -/
theorem filterMap_erase_of_none [DecidableEq α] {f : α → Option β} {a : α} (h : f a = none)
    (l : List α) : (l.erase a).filterMap f = l.filterMap f := by
  induction l with
  | nil => rfl
  | cons b l ih =>
    by_cases hb : b = a
    · subst hb
      simp [h]
    · rw [List.erase_cons_tail (by simpa using hb)]
      cases hf : f b with
      | none => simp [hf, ih]
      | some c => simp [hf, ih]

/-- Erasing an entry the view sees erases it from the view. -/
theorem filterMap_erase_of_some [DecidableEq α] [DecidableEq β] {f : α → Option β} {g : β → α}
    (hfg : ∀ a b, f a = some b ↔ a = g b) (b : β) (l : List α) :
    (l.erase (g b)).filterMap f = (l.filterMap f).erase b := by
  induction l with
  | nil => rfl
  | cons a l ih =>
    by_cases ha : a = g b
    · subst ha
      have hb : f (g b) = some b := (hfg _ _).mpr rfl
      simp [hb]
    · rw [List.erase_cons_tail (by simpa using ha)]
      cases hf : f a with
      | none => simp [hf, ih]
      | some c =>
        have hc : c ≠ b := by
          rintro rfl
          exact ha ((hfg _ _).mp hf)
        rw [List.filterMap_cons_some hf, List.filterMap_cons_some hf,
          List.erase_cons_tail (by simpa using hc), ih]

theorem filterMap_filter_of_false {f : α → Option β} {p : α → Bool}
    (h : ∀ a, p a = false → f a = none) (l : List α) :
    (l.filter p).filterMap f = l.filterMap f := by
  induction l with
  | nil => rfl
  | cons a l ih =>
    cases hp : p a with
    | true => cases hf : f a <;> simp [hp, hf, ih]
    | false => simp [hp, h a hp, ih]

theorem filterMap_map_of_eq {f : α → Option β} {g : α → α} (h : ∀ a, f (g a) = f a)
    (l : List α) : (l.map g).filterMap f = l.filterMap f := by
  induction l with
  | nil => rfl
  | cons a l ih => cases hf : f a <;> simp [h, hf, ih]

/-- An entry outside the view may be appended. -/
theorem filterMap_append_of_none {f : α → Option β} {a : α} (h : f a = none) (l : List α) :
    (l ++ [a]).filterMap f = l.filterMap f := by
  rw [List.filterMap_append, List.filterMap_cons_none h, List.filterMap_nil, List.append_nil]

/-- A view without repetitions stays so under a new entry. -/
theorem nodup_filterMap_append {f : α → Option β} {a : α} {b : β} {l : List α}
    (hl : (l.filterMap f).Nodup) (ha : f a = some b) (hb : b ∉ l.filterMap f) :
    ((l ++ [a]).filterMap f).Nodup := by
  rw [List.filterMap_append, List.filterMap_cons_some ha, List.filterMap_nil]
  refine List.nodup_append.mpr ⟨hl, List.nodup_singleton b, ?_⟩
  intro x hx y hy hxy
  obtain rfl := List.mem_singleton.mp hy
  exact hb (hxy ▸ hx)

section Positions

variable {f : α → Option β} {l : List α} {i : ℕ} {a b : α}

theorem split_at (h : l[i]? = some a) : l = l.take i ++ a :: l.drop (i + 1) := by
  obtain ⟨hi, rfl⟩ := List.getElem?_eq_some_iff.mp h
  rw [List.cons_getElem_drop_succ, List.take_append_drop]

theorem set_split (h : l[i]? = some a) : l.set i b = l.take i ++ b :: l.drop (i + 1) := by
  obtain ⟨hi, -⟩ := List.getElem?_eq_some_iff.mp h
  rw [List.set_eq_take_append_cons_drop, if_pos hi]

/-- An entry other than the one at a position survives its erasure. -/
theorem eq_or_mem_eraseIdx (h : l[i]? = some a) {x : α} (hx : x ∈ l) :
    x = a ∨ x ∈ l.eraseIdx i := by
  rw [split_at h] at hx
  rw [List.eraseIdx_eq_take_drop_succ]
  simp only [List.mem_append, List.mem_cons] at hx ⊢
  tauto

theorem eq_or_mem_set (h : l[i]? = some a) (b : α) {x : α} (hx : x ∈ l) :
    x = a ∨ x ∈ l.set i b := by
  rw [split_at h] at hx
  rw [set_split h]
  simp only [List.mem_append, List.mem_cons] at hx ⊢
  tauto

/-- Replacing an entry by one the view sees in the same way. -/
theorem filterMap_set_of_eq (h : l[i]? = some a) (hf : f a = f b) :
    (l.set i b).filterMap f = l.filterMap f := by
  conv_rhs => rw [split_at h]
  rw [set_split h]
  simp only [List.filterMap_append, List.filterMap_cons, hf]

/-- An entry the view did not see becomes visible. -/
theorem filterMap_set_perm {x : β} (h : l[i]? = some a) (ha : f a = none) (hb : f b = some x) :
    ((l.set i b).filterMap f).Perm (x :: l.filterMap f) := by
  conv_rhs => rw [split_at h]
  rw [set_split h, List.filterMap_append, List.filterMap_append, List.filterMap_cons_some hb,
    List.filterMap_cons_none ha]
  exact List.perm_middle

/-- Erasing a visible entry by its position. -/
theorem filterMap_eraseIdx_perm {x : β} (h : l[i]? = some a) (ha : f a = some x) :
    (l.filterMap f).Perm (x :: (l.eraseIdx i).filterMap f) := by
  conv_lhs => rw [split_at h]
  rw [List.eraseIdx_eq_take_drop_succ, List.filterMap_append, List.filterMap_append,
    List.filterMap_cons_some ha]
  exact List.perm_middle

end Positions

/-- A fold keeps what each of its steps keeps. -/
theorem foldl_keeps {step : σ → α → σ} {P : σ → Prop} (l : List α)
    (h : ∀ s, ∀ a ∈ l, P s → P (step s a)) {s : σ} (hs : P s) : P (l.foldl step s) := by
  induction l generalizing s with
  | nil => exact hs
  | cons a l ih =>
    exact ih (fun s b hb => h s b (List.mem_cons_of_mem a hb)) (h s a List.mem_cons_self hs)

/-- A component that no step touches is the same at the end. -/
theorem foldl_component {γ : Type*} {step : σ → α → σ} {f : σ → γ} (l : List α)
    (h : ∀ s, ∀ a ∈ l, f (step s a) = f s) (s : σ) : f (l.foldl step s) = f s :=
  foldl_keeps (P := fun t => f t = f s) l (fun t a ha ht => (h t a ha).trans ht) rfl

section Fallible

variable {ε α β : Type}

/-- A sequence of two computations succeeds when both do. -/
theorem bind_eq_ok {x : Except ε α} {f : α → Except ε β} {b : β} (h : (x >>= f) = .ok b) :
    ∃ a, x = .ok a ∧ f a = .ok b := by
  cases x with
  | error e => cases h
  | ok a => exact ⟨a, rfl, h⟩

theorem bind_eq_error {x : Except ε α} {f : α → Except ε β} {e : ε} (h : (x >>= f) = .error e) :
    x = .error e ∨ ∃ a, x = .ok a ∧ f a = .error e := by
  cases x with
  | error e' => exact .inl (congrArg Except.error (Except.error.inj h))
  | ok a => exact .inr ⟨a, rfl, h⟩

theorem exists_of_toOption_map {x : Except ε α} {f : α → β} {b : β}
    (h : x.toOption.map f = some b) : ∃ a, x = .ok a ∧ f a = b := by
  cases x with
  | error e => cases h
  | ok a => exact ⟨a, rfl, Option.some.inj h⟩

/-- Every value of a successful map comes from an entry of the list. -/
theorem exists_of_mapM_ok {f : α → Except ε β} {l : List α} {rs : List β}
    (h : l.mapM f = .ok rs) {r : β} (hr : r ∈ rs) : ∃ a ∈ l, f a = .ok r := by
  induction l generalizing rs with
  | nil =>
    cases h
    exact absurd hr List.not_mem_nil
  | cons a l ih =>
    rw [List.mapM_cons] at h
    obtain ⟨b, hb, h⟩ := bind_eq_ok h
    obtain ⟨bs, hbs, h⟩ := bind_eq_ok h
    cases h
    rcases List.mem_cons.mp hr with rfl | hr
    · exact ⟨a, List.mem_cons_self, hb⟩
    · obtain ⟨c, hc, hf⟩ := ih hbs hr
      exact ⟨c, List.mem_cons_of_mem a hc, hf⟩

end Fallible

/-- A change that the view does not see. -/
theorem map_modify_of_eq {f : α → α} {g : α → β} (h : ∀ a, g (f a) = g a) (l : List α) (i : ℕ) :
    (l.modify i f).map g = l.map g := by
  induction l generalizing i with
  | nil => simp
  | cons a l ih =>
    cases i with
    | zero => simp [h]
    | succ i => simp [ih]

/-- A sum over a list, after one entry changes. -/
theorem sum_modify {g : α → ℕ} {f : α → α} {l : List α} {i : ℕ} {a : α} (h : l[i]? = some a) :
    ((l.modify i f).map g).sum + g a = (l.map g).sum + g (f a) := by
  induction l generalizing i with
  | nil => cases h
  | cons b l ih =>
    cases i with
    | zero =>
      obtain rfl : b = a := Option.some.inj h
      simp only [List.modify_zero_cons, List.map_cons, List.sum_cons]
      omega
    | succ i =>
      have hrest := ih h
      simp only [List.modify_succ_cons, List.map_cons, List.sum_cons]
      omega

theorem forall₂_modify {R : α → α → Prop} {f : α → α} (hr : ∀ a, R a a) (hf : ∀ a, R a (f a))
    (l : List α) (i : ℕ) : List.Forall₂ R l (l.modify i f) := by
  induction l generalizing i with
  | nil => simp
  | cons a l ih =>
    cases i with
    | zero => exact List.Forall₂.cons (hf a) (List.forall₂_same.mpr fun b _ => hr b)
    | succ i => exact List.Forall₂.cons (hr a) (ih i)

/-- A prefix of a sorted list holds everything that does not come after its entries. -/
theorem mem_take_of_pairwise {r : α → α → Prop} {l : List α} (hl : l.Pairwise r) {n : ℕ} {a b : α}
    (ha : a ∈ l.take n) (hb : b ∈ l) (hab : ¬ r a b) : b ∈ l.take n := by
  rw [← List.take_append_drop n l] at hl hb
  rcases List.mem_append.mp hb with hb | hb
  · exact hb
  · exact absurd ((List.pairwise_append.mp hl).2.2 a ha b hb) hab

/-- A piece of a filtered list comes from a piece of the list. -/
theorem infix_filter_iff {p : α → Bool} {xs l : List α} :
    xs <:+: l.filter p ↔ ∃ u, u <:+: l ∧ u.filter p = xs := by
  constructor
  · rintro ⟨a, b, h⟩
    obtain ⟨l₁, l₂, rfl, h₁, hb⟩ := List.filter_eq_append_iff.mp h.symm
    obtain ⟨l₃, l₄, rfl, ha, hxs⟩ := List.filter_eq_append_iff.mp h₁
    exact ⟨l₄, ⟨l₃, l₂, by simp⟩, hxs⟩
  · rintro ⟨u, hu, rfl⟩
    exact hu.filter p

/-- A code none of whose words starts another can be read off the front. -/
theorem append_inj_of_code {ι : Type*} {word : ι → List α}
    (hw : ∀ i j, word i <+: word j → i = j) {i j : ι} {xs ys : List α}
    (h : word i ++ xs = word j ++ ys) : i = j ∧ xs = ys := by
  have hij : i = j := by
    have hi : word i <+: word j ++ ys := h ▸ List.prefix_append (word i) xs
    rcases List.prefix_or_prefix_of_prefix hi (List.prefix_append (word j) ys) with hp | hp
    · exact hw i j hp
    · exact (hw j i hp).symm
  subst hij
  exact ⟨rfl, List.append_cancel_left h⟩

/-- Of two predicates with one count the weaker is the stronger. -/
theorem imp_of_countP_eq {p q : α → Bool} {l : List α} (h : ∀ a ∈ l, p a → q a)
    (heq : l.countP q = l.countP p) : ∀ a ∈ l, q a → p a := by
  induction l with
  | nil => simp
  | cons b l ih =>
    have htail : ∀ a ∈ l, p a → q a := fun a ha => h a (List.mem_cons_of_mem b ha)
    have hle := List.countP_mono_left htail
    have hb := h b List.mem_cons_self
    rw [List.countP_cons, List.countP_cons] at heq
    have hsame : l.countP q = l.countP p ∧ (q b → p b) := by
      cases hp : p b <;> cases hq : q b <;> simp_all; omega
    intro a ha hqa
    rcases List.mem_cons.mp ha with rfl | ha
    · exact hsame.2 hqa
    · exact ih htail hsame.1 a ha hqa

theorem filterMap_take_of_isSome {f : α → Option β} {l : List α} (h : ∀ a ∈ l, (f a).isSome)
    (n : ℕ) : (l.take n).filterMap f = (l.filterMap f).take n := by
  induction l generalizing n with
  | nil => simp
  | cons a l ih =>
    obtain ⟨b, hb⟩ := Option.isSome_iff_exists.mp (h a List.mem_cons_self)
    cases n with
    | zero => rfl
    | succ n =>
      rw [List.take_succ_cons, List.filterMap_cons_some hb, List.filterMap_cons_some hb,
        List.take_succ_cons, ih fun x hx => h x (List.mem_cons_of_mem a hx)]

/-- A list that covers another is as long as the distinct elements of the other exactly when it has
each of them once. -/
theorem length_eq_dedup_iff [DecidableEq α] {l k : List α} (h : ∀ a ∈ k, a ∈ l) :
    l.length = k.dedup.length ↔ l.Nodup ∧ ∀ a ∈ l, a ∈ k := by
  have hsub : k.dedup ⊆ l := fun a ha => h a (List.mem_dedup.mp ha)
  have hsubperm := (List.nodup_dedup k).subperm hsub
  constructor
  · intro hlen
    have hperm := hsubperm.perm_of_length_le hlen.le
    exact ⟨hperm.nodup_iff.mp (List.nodup_dedup k),
      fun a ha => List.mem_dedup.mp (hperm.mem_iff.mpr ha)⟩
  · rintro ⟨hnd, hin⟩
    have hle := (hnd.subperm fun a ha => List.mem_dedup.mpr (hin a ha)).length_le
    exact le_antisymm hle hsubperm.length_le

theorem nodup_eraseDups [BEq α] [LawfulBEq α] (l : List α) : l.eraseDups.Nodup := by
  induction hn : l.length using Nat.strong_induction_on generalizing l with
  | _ n ih =>
    cases l with
    | nil => simp
    | cons a l =>
      rw [List.eraseDups_cons, List.nodup_cons]
      constructor
      · simp [List.mem_eraseDups]
      · refine ih _ ?_ _ rfl
        have hle := List.length_filter_le (fun b => !b == a) l
        rw [← hn, List.length_cons]
        omega

/-- A list without repetitions is one entry when all of its entries are that one. -/
theorem eq_singleton_iff {l : List α} (h : l.Nodup) {a : α} : l = [a] ↔ a ∈ l ∧ ∀ b ∈ l, b = a := by
  constructor
  · rintro rfl
    simp
  · rintro ⟨ha, hall⟩
    cases l with
    | nil => cases ha
    | cons b l =>
      obtain rfl := hall b List.mem_cons_self
      rcases l.eq_nil_or_concat with rfl | ⟨l', d, rfl⟩
      · rfl
      · obtain rfl := hall d (by simp)
        simp at h

theorem find?_eq_some_of_unique {p : α → Bool} {l : List α} {a : α} (ha : a ∈ l) (hp : p a)
    (h : ∀ b ∈ l, p b → b = a) : l.find? p = some a := by
  cases hf : l.find? p with
  | none => exact absurd hp (by simpa using List.find?_eq_none.mp hf a ha)
  | some b => rw [h b (List.mem_of_find?_eq_some hf) (List.find?_some hf)]

section Sorting

variable {r : α → α → Prop} [DecidableRel r] {p : α → Bool}

theorem filter_orderedInsert [IsTrans α r] {a : α} {l : List α} (hl : l.Pairwise r) (ha : p a) :
    (l.orderedInsert r a).filter p = (l.filter p).orderedInsert r a := by
  induction l with
  | nil => simp [ha]
  | cons b l ih =>
    obtain ⟨hb, hl⟩ := List.pairwise_cons.mp hl
    by_cases hab : r a b
    · have hall : ∀ x ∈ (b :: l).filter p, r a x := by
        intro x hx
        rcases List.mem_cons.mp (List.mem_of_mem_filter hx) with rfl | hx
        · exact hab
        · exact Trans.trans hab (hb x hx)
      rw [List.orderedInsert_cons_of_le r l hab, List.filter_cons_of_pos ha]
      cases hf : (b :: l).filter p with
      | nil => rfl
      | cons x l' =>
        rw [hf] at hall
        rw [List.orderedInsert_cons_of_le r l' (hall x List.mem_cons_self)]
    · rw [List.orderedInsert_of_not_le r l hab]
      by_cases hpb : p b
      · rw [List.filter_cons_of_pos hpb, List.filter_cons_of_pos hpb, ih hl,
          List.orderedInsert_of_not_le r _ hab]
      · rw [List.filter_cons_of_neg hpb, List.filter_cons_of_neg hpb, ih hl]

theorem filter_orderedInsert_of_neg {a : α} (l : List α) (ha : p a = false) :
    (l.orderedInsert r a).filter p = l.filter p := by
  induction l with
  | nil => simp [ha]
  | cons b l ih =>
    rw [List.orderedInsert_cons]
    split
    · rw [List.filter_cons_of_neg (by simp [ha])]
    · rw [List.filter_cons, List.filter_cons, ih]

/-- A stable sort and a filter commute. -/
theorem filter_insertionSort [IsTrans α r] [Std.Total r] (l : List α) :
    (l.insertionSort r).filter p = (l.filter p).insertionSort r := by
  induction l with
  | nil => rfl
  | cons a l ih =>
    rw [List.insertionSort_cons]
    by_cases ha : p a
    · rw [filter_orderedInsert (List.pairwise_insertionSort r l) ha, ih,
        List.filter_cons_of_pos ha, List.insertionSort_cons]
    · rw [filter_orderedInsert_of_neg _ (by simpa using ha), ih, List.filter_cons_of_neg ha]

end Sorting

/-- Of the least, `argmin` is the first. -/
theorem argmin_first {α β : Type} [LinearOrder β] {f : α → β} {r : α → α → Prop} {l : List α} (hl : l.Pairwise r) {m a : α}
    (hm : m ∈ l.argmin f) (ha : a ∈ l) : f m < f a ∨ f m = f a ∧ (m = a ∨ r m a) := by
  induction l using List.reverseRecOn generalizing m a with
  | nil => cases ha
  | append_singleton l b ih =>
    obtain ⟨hl, -, hb⟩ := List.pairwise_append.mp hl
    rw [List.argmin_concat] at hm
    cases hmin : l.argmin f with
    | none =>
      rw [hmin] at hm
      obtain rfl := List.argmin_eq_none.mp hmin
      obtain rfl := Option.some.inj hm
      obtain rfl := List.mem_singleton.mp ha
      exact .inr ⟨rfl, .inl rfl⟩
    | some k =>
      rw [hmin] at hm
      dsimp only at hm
      obtain ha | ha := List.mem_append.mp ha
      · have hk := ih hl hmin ha
        split_ifs at hm with hlt
        · obtain rfl := Option.some.inj hm
          obtain hk | ⟨heq, -⟩ := hk
          · exact .inl (hlt.trans hk)
          · exact .inl (hlt.trans_eq heq)
        · obtain rfl := Option.some.inj hm
          exact hk
      · obtain rfl := List.mem_singleton.mp ha
        split_ifs at hm with hlt
        · obtain rfl := Option.some.inj hm
          exact .inr ⟨rfl, .inl rfl⟩
        · obtain rfl := Option.some.inj hm
          obtain hlt' | heq := (not_lt.mp hlt).lt_or_eq
          · exact .inl hlt'
          · exact .inr ⟨heq, .inr (hb k (List.argmin_mem hmin) a (by simp))⟩

end Lists
