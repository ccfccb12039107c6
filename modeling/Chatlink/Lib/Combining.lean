import Mathlib

/-!
# Characters that combine

A text is a list of characters with classes; those of class 0 start, the others are marks. Neighbouring marks in the
wrong order change places until none are left, and the order they end in is the only one, each run of marks sorted.
Characters are then composed with the last starter before them, unless something stands between that blocks them.
-/
namespace Combining

variable {α : Type} (cc : α → ℕ)

/-! ## The order of marks -/

/-- Two neighbours of which the second belongs before the first. -/
def Wrong (a b : α) : Prop := cc b < cc a ∧ 0 < cc b

/-- Two neighbours in the wrong order change places. -/
inductive Swap : List α → List α → Prop where
  | mk (x : List α) (a b : α) (y : List α) (h : Wrong cc a b) : Swap (x ++ a :: b :: y) (x ++ b :: a :: y)

def Reorders : List α → List α → Prop := Relation.ReflTransGen (Swap cc)

/-- No neighbours are in the wrong order. -/
def Ordered (l : List α) : Prop := l.IsChain fun a b => ¬Wrong cc a b

/-- Puts a character before the first that it need not go behind. -/
def settle (a : α) : List α → List α
  | [] => [a]
  | b :: l => if cc b < cc a ∧ 0 < cc b then b :: settle a l else a :: b :: l

def settled (l : List α) : List α := l.foldr (settle cc) []

variable {cc} {a b c d p q : α} {l m x y z : List α}

@[simp] theorem settled_nil : settled cc [] = [] := rfl

@[simp] theorem settled_cons : settled cc (a :: l) = settle cc a (settled cc l) := rfl

theorem Reorders.cons (a : α) (h : Reorders cc l m) : Reorders cc (a :: l) (a :: m) := by
  induction h with
  | refl => exact .refl
  | tail _ hswap ih =>
    obtain ⟨x, b, c, y, hbc⟩ := hswap
    exact ih.tail ⟨a :: x, b, c, y, hbc⟩

theorem reorders_settle (a : α) (l : List α) : Reorders cc (a :: l) (settle cc a l) := by
  induction l with
  | nil => exact .refl
  | cons b l ih =>
    rw [settle]
    split_ifs with h
    · exact .head ⟨[], a, b, l, h⟩ (ih.cons b)
    · exact .refl

/-- The order is reached. -/
theorem reorders_settled (l : List α) : Reorders cc l (settled cc l) := by
  induction l with
  | nil => exact .refl
  | cons a l ih => exact (ih.cons a).trans (reorders_settle a _)

theorem mem_swap (h : Swap cc l m) : a ∈ l ↔ a ∈ m := by
  obtain ⟨x, b, c, y, -⟩ := h
  simp only [List.mem_append, List.mem_cons]
  tauto

theorem mem_reorders (h : Reorders cc l m) : a ∈ l ↔ a ∈ m := by
  induction h with
  | refl => rfl
  | tail _ hswap ih => rw [ih, mem_swap hswap]

theorem settle_head (a : α) (l : List α) : ∃ d m, settle cc a l = d :: m ∧ (d = a ∨ l.head? = some d) := by
  cases l with
  | nil => exact ⟨a, [], rfl, .inl rfl⟩
  | cons b l =>
    rw [settle]
    split_ifs
    · exact ⟨b, _, rfl, .inr rfl⟩
    · exact ⟨a, _, rfl, .inl rfl⟩

theorem ordered_settle (h : Ordered cc l) : Ordered cc (settle cc a l) := by
  induction l with
  | nil => exact List.isChain_singleton a
  | cons b l ih =>
    rw [settle]
    split_ifs with hwrong
    · obtain ⟨d, m, hd, hfirst⟩ : ∃ d m, settle cc a l = d :: m ∧ (d = a ∨ l.head? = some d) := settle_head a l
      have hrest := ih h.tail
      rw [hd] at hrest ⊢
      refine List.isChain_cons_cons.mpr ⟨?_, hrest⟩
      obtain rfl | hl := hfirst
      · exact fun hba => absurd hba.1 (by omega)
      · cases l with
        | nil => cases hl
        | cons e l =>
          cases hl
          exact (List.isChain_cons_cons.mp h).1
    · exact List.isChain_cons_cons.mpr ⟨hwrong, h⟩

theorem ordered_settled (l : List α) : Ordered cc (settled cc l) := by
  induction l with
  | nil => exact List.isChain_nil
  | cons a l ih => exact ordered_settle ih

theorem settle_eq_cons (h : Ordered cc (a :: l)) : settle cc a l = a :: l := by
  cases l with
  | nil => rfl
  | cons b l => exact if_neg (List.isChain_cons_cons.mp h).1

/-- What is in order stays. -/
theorem settled_of_ordered (h : Ordered cc l) : settled cc l = l := by
  induction l with
  | nil => rfl
  | cons a l ih => rw [settled_cons, ih h.tail, settle_eq_cons h]

/-- Marks of two classes may come in any order. -/
theorem settle_comm (h : Wrong cc a b) (l : List α) : settle cc a (settle cc b l) = settle cc b (settle cc a l) := by
  obtain ⟨hlt, hpos⟩ := h
  induction l with
  | nil =>
    have hb : settle cc b [a] = [b, a] := if_neg (by omega)
    rw [settle, settle, hb, settle, if_pos ⟨hlt, hpos⟩, settle]
  | cons d l ih =>
    by_cases hd : cc d < cc b ∧ 0 < cc d
    · have hda : cc d < cc a ∧ 0 < cc d := ⟨by omega, hd.2⟩
      rw [settle, if_pos hd, settle, if_pos hda, settle, if_pos hda, settle, if_pos hd, ih]
    · have hb : settle cc b (d :: l) = b :: d :: l := if_neg hd
      rw [hb, settle, if_pos ⟨hlt, hpos⟩]
      by_cases hda : cc d < cc a ∧ 0 < cc d
      · have ha : settle cc a (d :: l) = d :: settle cc a l := if_pos hda
        rw [ha, settle, if_neg hd]
      · have ha : settle cc a (d :: l) = a :: d :: l := if_neg hda
        have hba : ¬(cc a < cc b ∧ 0 < cc a) := fun h => absurd h.1 (by omega)
        rw [ha, settle, if_neg hba]

theorem settled_append : settled cc (l ++ m) = l.foldr (settle cc) (settled cc m) := List.foldr_append

theorem settled_congr (x : List α) (h : settled cc l = settled cc m) : settled cc (x ++ l) = settled cc (x ++ m) := by
  rw [settled_append, h, settled_append]

theorem settled_swap (h : Swap cc l m) : settled cc l = settled cc m := by
  obtain ⟨x, a, b, y, hab⟩ := h
  exact settled_congr x (settle_comm hab _)

theorem settled_reorders (h : Reorders cc l m) : settled cc l = settled cc m := by
  induction h with
  | refl => rfl
  | tail _ h ih => rw [ih, settled_swap h]

/-- The order that marks end in is the only one. -/
theorem eq_settled (h : Reorders cc l m) (hm : Ordered cc m) : m = settled cc l := by
  rw [settled_reorders h, settled_of_ordered hm]

/-- A mark may go before marks of lower classes. -/
theorem settled_before (h : ∀ b ∈ z, Wrong cc c b) (x y : List α) :
    settled cc (x ++ c :: (z ++ y)) = settled cc (x ++ (z ++ c :: y)) := by
  induction z generalizing x with
  | nil => rfl
  | cons b z ih =>
    have hswap : Swap cc (x ++ c :: b :: (z ++ y)) (x ++ b :: c :: (z ++ y)) := ⟨x, c, b, z ++ y, h b List.mem_cons_self⟩
    have hrest := ih (fun d hd => h d (List.mem_cons_of_mem b hd)) (x ++ [b])
    rw [List.append_assoc, List.append_assoc] at hrest
    exact (settled_swap hswap).trans hrest

/-! ## A sort of each run of marks -/

/-- A text that does not start with a mark. -/
def Opens (cc : α → ℕ) (l : List α) : Prop := ∀ a ∈ l.head?, cc a = 0

theorem settle_starter (ha : cc a = 0) (l : List α) : settle cc a l = a :: l := by
  cases l with
  | nil => rfl
  | cons b l => exact if_neg (by omega)

theorem opens_settled (h : Opens cc l) : Opens cc (settled cc l) := by
  cases l with
  | nil => exact h
  | cons a l =>
    have ha : cc a = 0 := h a rfl
    rw [settled_cons, settle_starter ha]
    exact h

theorem settle_run (a : α) (hl : ∀ b ∈ l, cc b ≠ 0) (hm : Opens cc m) :
    settle cc a (l ++ m) = l.orderedInsert (fun a b => cc a ≤ cc b) a ++ m := by
  induction l with
  | nil =>
    cases m with
    | nil => rfl
    | cons b m =>
      have hb : cc b = 0 := hm b rfl
      exact if_neg (by omega)
  | cons b l ih =>
    have hb := hl b List.mem_cons_self
    have hrest := ih fun d hd => hl d (List.mem_cons_of_mem b hd)
    rw [List.cons_append, settle, List.orderedInsert_cons]
    by_cases hab : cc a ≤ cc b
    · rw [if_neg (by omega), if_pos hab]
      rfl
    · rw [if_pos (by omega), if_neg hab, hrest]
      rfl

/-- A run of marks is sorted by itself. -/
theorem settled_run (hl : ∀ a ∈ l, cc a ≠ 0) (hm : Opens cc m) :
    settled cc (l ++ m) = l.insertionSort (fun a b => cc a ≤ cc b) ++ settled cc m := by
  induction l with
  | nil => rfl
  | cons a l ih =>
    have hrest := ih fun b hb => hl b (List.mem_cons_of_mem a hb)
    have hsorted : ∀ b ∈ l.insertionSort (fun a b => cc a ≤ cc b), cc b ≠ 0 := by
      intro b hb
      exact hl b (List.mem_cons_of_mem a ((List.mem_insertionSort _).mp hb))
    rw [List.cons_append, settled_cons, hrest, settle_run a hsorted (opens_settled hm)]
    rfl

theorem settled_starter (ha : cc a = 0) (l : List α) : settled cc (a :: l) = a :: settled cc l := settle_starter ha _

theorem settle_map {β : Type} (f : β → α) (b : β) (l : List β) :
    settle cc (f b) (l.map f) = (settle (fun b => cc (f b)) b l).map f := by
  induction l with
  | nil => rfl
  | cons d l ih =>
    rw [List.map_cons, settle, settle]
    split_ifs
    · rw [ih, List.map_cons]
    · rfl

theorem settled_map {β : Type} (f : β → α) (l : List β) :
    settled cc (l.map f) = (settled (fun b => cc (f b)) l).map f := by
  induction l with
  | nil => rfl
  | cons b l ih => rw [List.map_cons, settled_cons, ih, settle_map, settled_cons]

/-! ## Composition -/

/-- A starter, or a mark of the same class or a higher one, stands between. -/
def Blocked (cc : α → ℕ) (between : List α) (c : α) : Prop := ∃ b ∈ between, cc b = 0 ∨ cc c ≤ cc b

/-- `c` after `out` sees the starter `l`, which is the last. -/
def Sees (cc : α → ℕ) (c : α) (out x : List α) (l : α) (z : List α) : Prop :=
  out = x ++ l :: z ∧ cc l = 0 ∧ ¬Blocked cc z c

/-- What `out` becomes with the next character: it joins the starter that it sees, or stays. -/
inductive Joins (cc : α → ℕ) (joined : α → α → α → Prop) (out : List α) (c : α) : List α → Prop where
  | join {x : List α} {l : α} {z : List α} {p : α} (h : Sees cc c out x l z) (hp : joined l c p) :
      Joins cc joined out c (x ++ p :: z)
  | keep (h : ∀ x l z p, Sees cc c out x l z → ¬joined l c p) : Joins cc joined out c (out ++ [c])

/-- What `out` becomes with all the characters to come. -/
inductive Composes (cc : α → ℕ) (joined : α → α → α → Prop) : List α → List α → List α → Prop where
  | done (out : List α) : Composes cc joined out [] out
  | next {out : List α} {c : α} {out' rest r : List α} (h : Joins cc joined out c out')
      (hr : Composes cc joined out' rest r) : Composes cc joined out (c :: rest) r

variable {joined : α → α → α → Prop} {out out' rest r r' : List α}

theorem last_starter (h : x ++ a :: z = y ++ b :: m) (ha : cc a = 0) (hb : cc b = 0) (hz : ∀ c ∈ z, cc c ≠ 0)
    (hm : ∀ c ∈ m, cc c ≠ 0) : x = y ∧ a = b ∧ z = m := by
  obtain ⟨w, hy, hw⟩ | ⟨w, hx, hw⟩ := List.append_eq_append_iff.mp h
  · cases w with
    | nil =>
      cases hw
      exact ⟨by simpa using hy.symm, rfl, rfl⟩
    | cons d w =>
      cases hw
      exact absurd hb (hz b (by simp))
  · cases w with
    | nil =>
      cases hw
      exact ⟨by simpa using hx, rfl, rfl⟩
    | cons d w =>
      cases hw
      exact absurd ha (hm a (by simp))

theorem Sees.marks (h : Sees cc c out x a z) : ∀ b ∈ z, cc b ≠ 0 := fun b hb hzero => h.2.2 ⟨b, hb, .inl hzero⟩

theorem Sees.wrong (h : Sees cc c out x a z) : ∀ b ∈ z, Wrong cc c b := by
  intro b hb
  have hmark := h.marks b hb
  have hlt : ¬cc c ≤ cc b := fun hle => h.2.2 ⟨b, hb, .inr hle⟩
  exact ⟨by omega, by omega⟩

theorem Sees.unique (h : Sees cc c out x a z) (h' : Sees cc c out y b m) : x = y ∧ a = b ∧ z = m :=
  last_starter (h.1.symm.trans h'.1) h.2.1 h'.2.1 h.marks h'.marks

theorem Joins.unique (hjoined : ∀ l c p q, joined l c p → joined l c q → p = q) (h : Joins cc joined out c l)
    (h' : Joins cc joined out c m) : l = m := by
  cases h with
  | join hsees hp =>
    cases h' with
    | join hsees' hq =>
      obtain ⟨rfl, rfl, rfl⟩ := hsees.unique hsees'
      rw [hjoined _ _ _ _ hp hq]
    | keep hkeep => exact absurd hp (hkeep _ _ _ _ hsees)
  | keep hkeep =>
    cases h' with
    | join hsees hp => exact absurd hp (hkeep _ _ _ _ hsees)
    | keep _ => rfl

/-- The composed text is the only one. -/
theorem Composes.unique (hjoined : ∀ l c p q, joined l c p → joined l c q → p = q) (h : Composes cc joined out rest r)
    (h' : Composes cc joined out rest r') : r = r' := by
  induction h with
  | done out =>
    cases h' with
    | done _ => rfl
  | next hstep _ ih =>
    cases h' with
    | next hstep' hrest =>
      rw [Joins.unique hjoined hstep' hstep] at hrest
      exact ih hrest

end Combining
