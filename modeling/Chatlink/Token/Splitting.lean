import Chatlink.Token.Scanners

/-!
# The splitters are their regular expressions

The pieces of a text are the successive matches of its pattern just when no match on the way holds a contraction with a
long s that makes a difference.
-/
namespace Chatlink.Token.Pieces

open Choice Choice.Pat

variable (C : Categories) (p : Pattern)

/-- A text split into the successive matches of a pattern, none of them empty. -/
inductive Splits : List Char → List (List Char) → Prop where
  | done : Splits [] []
  | next {s w rest : List Char} {ws : List (List Char)} (hs : s = w ++ rest) (hw : w ≠ [])
      (hm : (pattern C p).first s = some rest) (h : Splits rest ws) : Splits s (w :: ws)

/-- What is left of a text after some of the successive matches of a pattern. -/
inductive Reached : List Char → List Char → Prop where
  | here (s : List Char) : Reached s s
  | next {s rest v : List Char} (hs : s ≠ []) (hm : (pattern C p).first s = some rest) (h : Reached rest v) : Reached s v

variable {C p} {s : List Char}

/-- Each scanner takes what its pattern takes, unless a long s makes a difference. -/
theorem next_first (hs : s ≠ []) :
    ((pattern C p).first s = some (s.drop (next C p s)) ↔ ¬LongS C p s) ∧ 0 < next C p s := by
  cases p with
  | gpt2 =>
    obtain ⟨hfirst, hpos⟩ := gpt2_first (C := C) hs
    exact ⟨iff_of_true hfirst not_false, hpos⟩
  | cl100k => exact cl100k_first hs
  | o200k => exact o200k_first hs

theorem not_longS_nil : ¬LongS C p [] := by
  cases p with
  | gpt2 => exact not_false
  | cl100k => rintro ⟨x, rest, h, -⟩; cases h
  | o200k =>
    rintro ⟨rest, h⟩
    rw [first_alt, lowerWord, upperWord, first_seq_opt_chr_nil, first_seq_opt_chr_nil, first_lower, first_upper] at h
    cases hl : word C [] false <;> cases hu : word C [] true <;> simp [hl, hu] at h

theorem splits_cons {ws : List (List Char)} {n : ℕ} (hs : s ≠ []) (hn : 0 < n) :
    Splits C p s (s.take n :: ws) ↔ (pattern C p).first s = some (s.drop n) ∧ Splits C p (s.drop n) ws := by
  constructor
  · intro h
    cases h with
    | @next _ _ rest _ happend hw hm hrest =>
      have hdrop : s.drop n = rest := List.append_cancel_left ((List.take_append_drop n s).trans happend)
      rw [hdrop]
      exact ⟨hm, hrest⟩
  · rintro ⟨hm, hrest⟩
    have hw : s.take n ≠ [] := by
      intro hnil
      obtain h | h := List.take_eq_nil_iff.mp hnil
      · omega
      · exact hs h
    exact .next (List.take_append_drop n s).symm hw hm hrest

/-- What is reached is where the text starts, or is reached from behind the first match. -/
theorem reached_iff {v rest : List Char} (hs : s ≠ []) (hm : (pattern C p).first s = some rest) :
    Reached C p s v ↔ v = s ∨ Reached C p rest v := by
  constructor
  · intro h
    cases h with
    | here => exact .inl rfl
    | next _ hm' h =>
      rw [hm] at hm'
      cases hm'
      exact .inr h
  · rintro (rfl | h)
    · exact .here v
    · exact .next hs hm h

theorem splits_nil (ws : List (List Char)) : (Splits C p [] ws ↔ ws = []) := by
  constructor
  · intro h
    cases h with
    | done => rfl
    | next happend hw _ _ => exact absurd (List.append_eq_nil_iff.mp happend.symm).1 hw
  · rintro rfl
    exact .done

theorem reached_nil {v : List Char} (h : Reached C p [] v) : v = [] := by
  cases h with
  | here => rfl
  | next hs _ _ => exact absurd rfl hs

theorem piecesFrom_splits (fuel : ℕ) (h : s.length ≤ fuel) :
    Splits C p s (piecesFrom C p fuel s) ↔ ∀ v, Reached C p s v → ¬LongS C p v := by
  induction fuel generalizing s with
  | zero =>
    rw [List.length_eq_zero_iff.mp (Nat.le_zero.mp h), splits_nil, piecesFrom]
    refine iff_of_true rfl fun v hv => ?_
    rw [reached_nil hv]
    exact not_longS_nil
  | succ fuel ih =>
    rw [piecesFrom]
    by_cases hs : s = []
    · subst hs
      rw [if_pos rfl, splits_nil]
      refine iff_of_true rfl fun v hv => ?_
      rw [reached_nil hv]
      exact not_longS_nil
    · obtain ⟨hfirst, hpos⟩ := next_first (C := C) (p := p) hs
      have hlength : (s.drop (next C p s)).length ≤ fuel := by
        rw [List.length_drop]
        omega
      rw [if_neg hs, splits_cons hs hpos, ih hlength]
      by_cases hlong : LongS C p s
      · exact iff_of_false (fun hsplit => hfirst.mp hsplit.1 hlong) fun hall => hall s (.here s) hlong
      · have hm := hfirst.mpr hlong
        constructor
        · rintro ⟨-, hall⟩ v hv
          obtain rfl | hv := (reached_iff hs hm).mp hv
          · exact hlong
          · exact hall v hv
        · intro hall
          exact ⟨hm, fun v hv => hall v ((reached_iff hs hm).mpr (.inr hv))⟩

/-- The pieces are never empty, and together they are the text. -/
theorem piecesFrom_flatten (fuel : ℕ) (h : s.length ≤ fuel) :
    (∀ w ∈ piecesFrom C p fuel s, w ≠ []) ∧ (piecesFrom C p fuel s).flatten = s := by
  induction fuel generalizing s with
  | zero =>
    rw [List.length_eq_zero_iff.mp (Nat.le_zero.mp h)]
    exact ⟨fun w hw => (nomatch hw), rfl⟩
  | succ fuel ih =>
    rw [piecesFrom]
    split_ifs with hs
    · rw [hs]
      exact ⟨fun w hw => (nomatch hw), rfl⟩
    · have hpos := (next_first (C := C) (p := p) hs).2
      have hlength : (s.drop (next C p s)).length ≤ fuel := by
        rw [List.length_drop]
        omega
      obtain ⟨hne, hflatten⟩ := ih hlength
      refine ⟨?_, by rw [List.flatten_cons, hflatten, List.take_append_drop]⟩
      intro w hw
      obtain rfl | hw := List.mem_cons.mp hw
      · intro hnil
        obtain h | h := List.take_eq_nil_iff.mp hnil
        · omega
        · exact hs h
      · exact hne w hw

/-- For every pattern and text: no piece is empty, the pieces together are the text, and each is the match of the
pattern where it starts just when, wherever the matches lead, no long s makes a contraction that tells them apart. -/
theorem pieces_match (C : Categories) (p : Pattern) (text : List Char) :
    (∀ w ∈ pieces C p text, w ≠ []) ∧ (pieces C p text).flatten = text ∧
      (Splits C p text (pieces C p text) ↔ ∀ v, Reached C p text v → ¬LongS C p v) :=
  ⟨(piecesFrom_flatten text.length le_rfl).1, (piecesFrom_flatten text.length le_rfl).2,
    piecesFrom_splits text.length le_rfl⟩

end Chatlink.Token.Pieces
