import Chatlink.Text.Python
import Mathlib.Data.List.DropRight

/-!
# Single spaces

A text whose separators are single spaces is left alone by the collapse of separators, and
collapsing makes every text such a one. Collapsing and stripping keep the other characters, each as
often as it stands in the text.
-/
namespace Chatlink.Texto

variable {p q : Char → Bool} {c : Char}

/-! ## What stays -/

theorem count_dropWhile (hc : p c = false) (s : Texto) : (s.dropWhile p).count c = s.count c := by
  induction s with
  | nil => rfl
  | cons d s ih =>
    rw [List.dropWhile_cons]
    split
    · next hd =>
      have hne : d ≠ c := fun heq => by simp [heq, hc] at hd
      rw [ih, List.count_cons_of_ne hne]
    · rfl

theorem count_stripBy (hc : p c = false) (s : Texto) : (stripBy p s).count c = s.count c := by
  unfold stripBy rstripBy lstripBy
  rw [List.count_reverse, count_dropWhile hc, List.count_reverse, count_dropWhile hc]

theorem mem_of_mem_stripBy {s : Texto} (h : c ∈ stripBy p s) : c ∈ s := by
  unfold stripBy rstripBy lstripBy at h
  have h1 := (List.dropWhile_sublist p).subset (List.mem_reverse.mp h)
  exact (List.dropWhile_sublist p).subset (List.mem_reverse.mp h1)

theorem stripBy_isInfix (s : Texto) : stripBy p s <:+: s :=
  (List.rdropWhile_prefix p _).isInfix.trans (List.dropWhile_suffix p).isInfix

/-- What is stripped already has nothing to strip at its head: it is a head of a stripped text. -/
theorem stripBy_stripBy (s : Texto) : stripBy p (stripBy p s) = stripBy p s := by
  have hhead : ∀ t : Texto, t <+: s.dropWhile p → t.dropWhile p = t := by
    intro t ht
    cases t with
    | nil => rfl
    | cons c t =>
      obtain ⟨u, hu⟩ := ht
      have hne : s.dropWhile p ≠ [] := by simp [← hu]
      have hc := List.head_dropWhile_not p hne
      have hceq : (s.dropWhile p).head hne = c := by simp [← hu]
      rw [hceq] at hc
      exact List.dropWhile_cons_of_neg (by simp [hc])
  unfold stripBy lstripBy
  rw [hhead (rstripBy p (s.dropWhile p)) (List.rdropWhile_prefix p _)]
  exact List.rdropWhile_idempotent p _

theorem count_collapseBy (hc : p c = false) (hne : ' ' ≠ c) (s : Texto) (inRun : Bool) :
    (collapseBy p inRun s).count c = s.count c := by
  induction s generalizing inRun with
  | nil => rfl
  | cons d s ih =>
    unfold collapseBy
    split
    · next hd =>
      have hdc : d ≠ c := fun heq => by simp [heq, hc] at hd
      split
      · rw [ih, List.count_cons_of_ne hdc]
      · rw [List.count_cons_of_ne hne, ih, List.count_cons_of_ne hdc]
    · rw [List.count_cons, ih, List.count_cons]

theorem mem_of_mem_collapseBy {s : Texto} {inRun : Bool} (h : c ∈ collapseBy p inRun s) :
    c = ' ' ∨ (c ∈ s ∧ p c = false) := by
  induction s generalizing inRun with
  | nil => cases h
  | cons d s ih =>
    have hs {b : Bool} (h : c ∈ collapseBy p b s) : c = ' ' ∨ (c ∈ d :: s ∧ p c = false) :=
      (ih h).imp_right fun ⟨hmem, hp⟩ => ⟨List.mem_cons_of_mem d hmem, hp⟩
    unfold collapseBy at h
    split at h
    · split at h
      · exact hs h
      · rcases List.mem_cons.mp h with rfl | h
        · exact Or.inl rfl
        · exact hs h
    · next hd =>
      rcases List.mem_cons.mp h with rfl | h
      · exact Or.inr ⟨List.mem_cons_self, by simpa using hd⟩
      · exact hs h

/-! ## Single spaces -/

/-- Each separator is a space, and no two stand together. -/
structure Espaciado (p : Char → Bool) (s : Texto) : Prop where
  espacio : ∀ c ∈ s, p c → c = ' '
  suelto : s.IsChain fun a b => ¬ (p a ∧ p b)

namespace Espaciado

variable {s t : Texto}

theorem of_isInfix (h : Espaciado p s) (ht : t <:+: s) : Espaciado p t where
  espacio c hc := h.espacio c (ht.subset hc)
  suelto := by
    obtain ⟨a, b, rfl⟩ := ht
    exact h.suelto.left_of_append.right_of_append

theorem mono (h : Espaciado p s) (hqp : ∀ c, q c → p c) : Espaciado q s where
  espacio c hc hq := h.espacio c hc (hqp c hq)
  suelto := h.suelto.imp fun a b hab ⟨ha, hb⟩ => hab ⟨hqp a ha, hqp b hb⟩

theorem tail {d : Char} (h : Espaciado p (d :: s)) : Espaciado p s :=
  h.of_isInfix (List.suffix_cons d s).isInfix

end Espaciado

theorem espaciado_cons {s : Texto} (h : Espaciado p s) (hc : p c → c = ' ')
    (hhead : ∀ d ∈ s.head?, ¬ (p c ∧ p d)) : Espaciado p (c :: s) where
  espacio d hd hpd := by
    rcases List.mem_cons.mp hd with rfl | hd
    · exact hc hpd
    · exact h.espacio d hd hpd
  suelto := List.isChain_cons.mpr ⟨hhead, h.suelto⟩

/-- Inside a run of separators the collapse begins with another character. -/
theorem espaciado_collapseBy (s : Texto) (inRun : Bool) :
    Espaciado p (collapseBy p inRun s) ∧
      (inRun → ∀ c ∈ (collapseBy p inRun s).head?, p c = false) := by
  induction s generalizing inRun with
  | nil => exact ⟨⟨by simp [collapseBy], by simp [collapseBy]⟩, by simp [collapseBy]⟩
  | cons d s ih =>
    unfold collapseBy
    split
    · split
      · next hrun =>
        exact ⟨(ih true).1, fun _ => (ih true).2 rfl⟩
      · next hrun =>
        refine ⟨espaciado_cons (ih true).1 (fun _ => rfl) ?_, fun hr => absurd hr hrun⟩
        intro e he hpe
        have := (ih true).2 rfl e he
        simp [this] at hpe
    · next hd =>
      refine ⟨espaciado_cons (ih false).1 (fun h => absurd h hd) fun e _ h => hd h.1, ?_⟩
      intro _ c hc
      simp only [List.head?_cons, Option.mem_some_iff] at hc
      subst hc
      simpa using hd

theorem collapseBy_eq_self {s : Texto} (h : Espaciado p s) (inRun : Bool)
    (hhead : inRun → ∀ c ∈ s.head?, p c = false) : collapseBy p inRun s = s := by
  induction s generalizing inRun with
  | nil => rfl
  | cons d s ih =>
    unfold collapseBy
    split
    · next hd =>
      have hrun : inRun = false := by
        by_contra hr
        have := hhead (by simpa using hr) d rfl
        simp [this] at hd
      obtain rfl := h.espacio d List.mem_cons_self hd
      rw [hrun, if_neg (by simp), ih h.tail true]
      intro _ c hc
      have := (List.isChain_cons.mp h.suelto).1 c hc
      simpa [hd] using this
    · rw [ih h.tail false (by simp)]

end Chatlink.Texto
