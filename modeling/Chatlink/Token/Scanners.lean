import Chatlink.Token.Patterns

/-!
# What the scanners take

Each scanner takes at the start of a text what its pattern takes there, unless a long s makes a contraction that only
the engine sees.
-/
namespace Chatlink.Token.Pieces

open Choice Choice.Pat

variable {C : Categories} {s : List Char}

/-! ## GPT-2 -/

theorem head_of_skip (hs : s ≠ []) (h : ∀ c ∈ (s.drop (skip s)).head?, C.is_whitespace c) :
    s.head?.any C.is_whitespace := by
  cases s with
  | nil => exact absurd rfl hs
  | cons c s =>
    by_cases hc : c = ' '
    · subst hc
      exact whitespace_blank
    · exact h c (by simp [skip, hc])

/-- What the GPT-2 scanner does where there is no contraction: a run of what it sees behind a blank, or white space. -/
theorem gpt2_eq (h : contraction s false = none) :
    gpt2 C s =
      if (s.drop (skip s)).head?.any C.is_letter then skip s + run (s.drop (skip s)) C.is_letter
      else if (s.drop (skip s)).head?.any C.is_numeric then skip s + run (s.drop (skip s)) C.is_numeric
      else if (s.drop (skip s)).head?.any (symbol C) then skip s + run (s.drop (skip s)) (symbol C)
      else spaces C s := by
  rw [gpt2, h, ← letter_class, ← number_class, ← other_class]
  dsimp only
  rw [← skip]
  cases (s.drop (skip s)).head? with
  | none => rfl
  | some c => cases hc : C.classOf c <;> simp [hc]

/-- The GPT-2 scanner takes what the pattern takes. -/
theorem gpt2_first (hs : s ≠ []) : (pattern C .gpt2).first s = some (s.drop (gpt2 C s)) ∧ 0 < gpt2 C s := by
  obtain ⟨hletter, hnumber, hother⟩ := blank_classes (C := C)
  have hread : (contractions false).first s = (contraction s false).map fun n => s.drop n :=
    first_contractions fun h => absurd h Bool.false_ne_true
  rw [pattern, first_anyOf_cons, first_anyOf_cons, first_anyOf_cons, first_anyOf_cons, hread,
    first_blank (first_plus_blank hletter), first_blank (first_plus_blank hnumber),
    first_blank (first_plus_blank hother)]
  cases hcontraction : contraction s false with
  | some n =>
    have hgpt2 : gpt2 C s = n := by rw [gpt2, hcontraction]
    rw [hgpt2]
    exact ⟨rfl, contraction_pos hcontraction⟩
  | none =>
    have hrun {p : Char → Bool} (h : (s.drop (skip s)).head?.any p) :
        (plus (chr p)).first (s.drop (skip s)) = some (s.drop (skip s + run (s.drop (skip s)) p)) := by
      rw [first_plus_run h, List.drop_drop]
    have hnone {p : Char → Bool} (h : ¬(s.drop (skip s)).head?.any p) :
        (plus (chr p)).first (s.drop (skip s)) = none := first_plus_none (Bool.eq_false_iff.mpr h)
    rw [gpt2_eq hcontraction]
    split_ifs with hl hn ho
    · rw [hrun hl]
      exact ⟨rfl, Nat.add_pos_right _ (run_pos hl)⟩
    · rw [hnone hl, hrun hn]
      exact ⟨rfl, Nat.add_pos_right _ (run_pos hn)⟩
    · rw [hnone hl, hnone hn, hrun ho]
      exact ⟨rfl, Nat.add_pos_right _ (run_pos ho)⟩
    · have hspace : s.head?.any C.is_whitespace := by
        refine head_of_skip hs fun c hc => ?_
        rw [Option.mem_def.mp hc] at hl hn ho
        obtain ⟨-, h, -⟩ | ⟨-, -, h, -⟩ | ⟨-, -, -, h⟩ | ⟨h, -⟩ := class_cases (C := C) c
        · exact absurd h hl
        · exact absurd h hn
        · exact absurd h ho
        · exact classOf_space.mp h
      rw [hnone hl, hnone hn, hnone ho]
      exact ⟨first_blanks hspace, spaces_pos hspace⟩

/-! ## cl100k -/

theorem first_digits (h : s.head?.any C.is_numeric) :
    (digits C).first s = some (s.drop (runOf s 3 C.is_numeric)) ∧ 0 < runOf s 3 C.is_numeric := by
  cases s with
  | nil => cases h
  | cons c s =>
    have hc : C.is_numeric c = true := h
    rw [digits, first_seq_chr, if_pos hc, first_upTo_chr, runOf, List.take_succ_cons, List.takeWhile_cons, if_pos hc]
    exact ⟨rfl, Nat.succ_pos _⟩

theorem first_digits_none (h : s.head?.any C.is_numeric = false) : (digits C).first s = none := by
  cases s with
  | nil => rfl
  | cons c s =>
    have hc : C.is_numeric c = false := h
    rw [digits, first_seq_chr, if_neg (Bool.eq_false_iff.mp hc)]

/-- Whether a symbol stands behind an optional blank, as the scanners ask it. -/
theorem symbols_eq (c : Char) (t : List Char) :
    (decide (C.classOf c = .other) || decide (c = ' ') && t.head?.any fun d => decide (C.classOf d = .other)) =
      ((c :: t).drop (skip (c :: t))).head?.any (symbol C) := by
  rw [other_class, skip, List.head?_cons]
  have hother : decide (C.classOf c = .other) = symbol C c := congrFun other_class c
  rw [hother]
  by_cases hc : c = ' '
  · subst hc
    simp [blank_classes.2.2]
  · simp [hc]

/-- A character that is no letter or number is white space, or a symbol stands there. -/
theorem whitespace_of_not_symbols {c : Char} {t : List Char} (hl : C.is_letter c = false) (hn : C.is_numeric c = false)
    (h : ((c :: t).drop (skip (c :: t))).head?.any (symbol C) = false) : C.is_whitespace c := by
  rw [← symbols_eq, Bool.or_eq_false_iff, decide_eq_false_iff_not] at h
  obtain ⟨-, hletter, -⟩ | ⟨-, -, hnumber, -⟩ | ⟨hclass, -⟩ | ⟨hclass, -⟩ := class_cases (C := C) c
  · rw [hl] at hletter
    cases hletter
  · rw [hn] at hnumber
    cases hnumber
  · exact absurd hclass h.1
  · exact classOf_space.mp hclass

theorem letter_long : C.is_letter 'ſ' := is_letter_iff.mpr (by rw [Categories.kind, C.kind_long_s]; decide)

theorem apostrophe : C.is_letter '\'' = false ∧ C.is_numeric '\'' = false := by
  have hkind : C.kind '\'' = 0 := by
    rw [Categories.kind, Nfc.kind, if_neg (by decide), if_neg (by decide), if_pos (by decide)]
  refine ⟨not_letter_of_kind hkind, ?_⟩
  rw [C.ascii_numeric _ (by decide)]
  decide

theorem cl100k_eq {c : Char} {t : List Char} (h : contraction (c :: t) true = none) :
    cl100k C (c :: t) =
      if C.is_letter c then run (c :: t) C.is_letter
      else if C.is_numeric c then runOf (c :: t) 3 C.is_numeric
      else if front C c && t.head?.any C.is_letter then 1 + run t C.is_letter
      else rest C (c :: t) (((c :: t).drop (skip (c :: t))).head?.any (symbol C)) false := by
  have hsecond : (c :: t)[1]? = t.head? := by rw [List.getElem?_cons_succ, List.head?_eq_getElem?]
  rw [cl100k, h, ← symbols_eq]
  simp only [hsecond, List.head?_cons, Option.getD_some, List.drop_zero, List.drop_succ_cons, Nat.zero_add]
  obtain ⟨hclass, hl, hn, -⟩ | ⟨hclass, hl, hn, -⟩ | ⟨hclass, hl, hn, -⟩ | ⟨hclass, hl, hn, -⟩ := class_cases (C := C) c
  · simp [hclass, hl]
  · simp [hclass, hl, hn]
  · simp [hclass, hl, hn, front]
  · simp only [hclass, hl, hn, front, Bool.or_false, Bool.false_eq_true, if_false]
    rfl

/-- Apart from the long s, the cl100k scanner takes what the pattern takes. -/
theorem cl100k_read (hs : s ≠ []) (hlong : ∀ rest, s ≠ '\'' :: 'ſ' :: rest) :
    (pattern C .cl100k).first s = some (s.drop (cl100k C s)) ∧ 0 < cl100k C s := by
  have hread : (contractions true).first s = (contraction s true).map fun n => s.drop n := first_contractions fun _ => hlong
  rw [pattern, first_anyOf_cons, first_anyOf_cons, first_anyOf_cons, hread]
  cases hcontraction : contraction s true with
  | some n =>
    have hn : cl100k C s = n := by rw [cl100k, hcontraction]
    rw [hn]
    exact ⟨rfl, contraction_pos hcontraction⟩
  | none =>
    obtain ⟨c, t, rfl⟩ := List.exists_cons_of_ne_nil hs
    rw [cl100k_eq hcontraction, first_seq_opt_chr]
    obtain ⟨-, hl, hn, -⟩ | ⟨-, hl, hn, -⟩ | hclass := class_cases (C := C) c
    · have hfront : front C c = false := by simp [front, hl]
      have hhead : (c :: t).head?.any C.is_letter := hl
      rw [if_pos hl, if_neg (Bool.eq_false_iff.mp hfront), first_plus_run hhead]
      exact ⟨rfl, run_pos hhead⟩
    · have hfront : front C c = false := by simp [front, hn]
      have hhead : (c :: t).head?.any C.is_numeric := hn
      have hself : (c :: t).head?.any C.is_letter = false := hl
      obtain ⟨hdigits, hpos⟩ := first_digits hhead
      rw [if_neg (Bool.eq_false_iff.mp hl), if_pos hn, if_neg (Bool.eq_false_iff.mp hfront), first_plus_none hself,
        hdigits]
      exact ⟨rfl, hpos⟩
    · have hl : C.is_letter c = false := by obtain ⟨-, hl, -⟩ | ⟨-, hl, -⟩ := hclass <;> exact hl
      have hn : C.is_numeric c = false := by obtain ⟨-, -, hn, -⟩ | ⟨-, -, hn, -⟩ := hclass <;> exact hn
      have hself : (c :: t).head?.any C.is_letter = false := hl
      have hdigit : (c :: t).head?.any C.is_numeric = false := hn
      have hrest := first_rest (C := C) (s := c :: t) false fun h => whitespace_of_not_symbols hl hn h
      rw [if_neg (Bool.eq_false_iff.mp hl), if_neg (Bool.eq_false_iff.mp hn), first_plus_none hself,
        first_digits_none hdigit]
      by_cases hword : front C c && t.head?.any C.is_letter
      · obtain ⟨hfront, hnext⟩ := Bool.and_eq_true_iff.mp hword
        rw [if_pos hword, if_pos hfront, first_plus_run hnext, Nat.add_comm]
        exact ⟨rfl, Nat.succ_pos _⟩
      · have hnone : (if front C c then (plus (chr C.is_letter)).first t else none) = none := by
          split_ifs with hfront
          · exact first_plus_none (Bool.eq_false_iff.mpr fun h => hword (Bool.and_eq_true_iff.mpr ⟨hfront, h⟩))
          · rfl
        rw [if_neg hword, hnone]
        exact hrest

theorem cl100k_first (hs : s ≠ []) :
    ((pattern C .cl100k).first s = some (s.drop (cl100k C s)) ↔ ¬LongS C .cl100k s) ∧ 0 < cl100k C s := by
  by_cases hlong : ∃ rest, s = '\'' :: 'ſ' :: rest
  · obtain ⟨rest, rfl⟩ := hlong
    obtain ⟨hl, hn⟩ := apostrophe (C := C)
    have hword : front C '\'' && ('ſ' :: rest).head?.any C.is_letter := by
      rw [front, hl, hn, List.head?_cons, Option.any_some, letter_long]
      decide
    have hrun : run ('ſ' :: rest) C.is_letter = run rest C.is_letter + 1 := by
      rw [run, List.takeWhile_cons, if_pos letter_long]
      rfl
    rw [cl100k_eq (contraction_long rest), if_neg (Bool.eq_false_iff.mp hl), if_neg (Bool.eq_false_iff.mp hn),
      if_pos hword, hrun, pattern, first_anyOf_cons, first_contractions_long, Option.some_or]
    have hdrop : ('\'' :: 'ſ' :: rest).drop (1 + (run rest C.is_letter + 1)) = rest.drop (run rest C.is_letter) := by
      rw [Nat.add_comm 1]
      rfl
    rw [hdrop, Option.some_inj]
    refine ⟨?_, by omega⟩
    constructor
    · rintro hsame ⟨x, u, hu, hx⟩
      cases hu
      have hpos : 0 < run (x :: u) C.is_letter := run_pos hx
      have hlength := congrArg List.length hsame
      rw [List.length_drop, List.length_cons] at hlength
      omega
    · intro hnot
      cases rest with
      | nil => rfl
      | cons x u =>
        have hx : ¬C.is_letter x := fun hx => hnot ⟨x, u, rfl, hx⟩
        rw [run, List.takeWhile_cons, if_neg hx]
        rfl
  · push Not at hlong
    have hnot : ¬LongS C .cl100k s := by
      rintro ⟨x, rest, hrest, -⟩
      exact hlong _ hrest
    obtain ⟨hfirst, hpos⟩ := cl100k_read (C := C) hs hlong
    exact ⟨iff_of_true hfirst hnot, hpos⟩

/-! ## Words -/

theorem upper_iff {c : Char} : upper C c ↔ C.kind c ≠ 0 ∧ C.kind c ≠ 2 := by
  have hle : C.kind c ≤ 4 := C.kind_le c
  rw [upper, Bool.or_eq_true, Bool.or_eq_true, beq_iff_eq, beq_iff_eq, beq_iff_eq]
  omega

theorem lower_iff {c : Char} : lower C c ↔ C.kind c ≠ 0 ∧ 2 ≤ C.kind c := by
  have hle : C.kind c ≤ 4 := C.kind_le c
  rw [lower, Bool.or_eq_true, Bool.or_eq_true, beq_iff_eq, beq_iff_eq, beq_iff_eq]
  omega

theorem drop_takeWhile_of_le {α : Type} {p : α → Bool} {l : List α} {a : ℕ} (h : a ≤ (l.takeWhile p).length) :
    (l.takeWhile p).drop a = (l.drop a).takeWhile p := by
  induction l generalizing a with
  | nil => simp
  | cons x l ih =>
    cases a with
    | zero => rfl
    | succ a =>
      rw [List.takeWhile_cons] at h ⊢
      split_ifs at h ⊢
      · exact ih (Nat.le_of_succ_le_succ h)
      · simp at h

/-- The kinds of a run of letters and marks up to the first that is not accepted. -/
theorem length_kinds {p : ℕ → Bool} {q : Char → Bool} (h : ∀ c, q c ↔ C.kind c ≠ 0 ∧ p (C.kind c)) (s : List Char) :
    (((s.map C.kind).takeWhile fun k => k ≠ 0).takeWhile p).length = run s q := by
  rw [List.takeWhile_takeWhile, List.takeWhile_map, List.length_map, run]
  congr 2
  funext c
  rw [Bool.eq_iff_iff, h]
  simp [and_comm]

theorem length_most (s : List Char) :
    (((s.map C.kind).takeWhile fun k => k ≠ 0).takeWhile fun k => k ≠ 2).length = run s (upper C) :=
  length_kinds (fun c => by rw [upper_iff]; simp) s

theorem length_lower {a : ℕ} (h : a ≤ run s (upper C)) :
    ((((s.map C.kind).takeWhile fun k => k ≠ 0).drop a).takeWhile fun k => 2 ≤ k).length = run (s.drop a) (lower C) := by
  have hle : a ≤ ((s.map C.kind).takeWhile fun k => k ≠ 0).length :=
    (h.trans_eq (length_most s).symm).trans (List.takeWhile_prefix _).length_le
  rw [drop_takeWhile_of_le hle, ← List.map_drop]
  exact length_kinds (fun c => by rw [lower_iff]; simp) (s.drop a)

theorem word_upper (s : List Char) :
    word C s true = if 0 < run s (upper C) then
      some (run s (upper C) + run (s.drop (run s (upper C))) (lower C)) else none := by
  rw [word]
  simp only [if_true, length_most, length_lower le_rfl]

theorem find?_map_congr {l : List ℕ} {p q : ℕ → Bool} {f g : ℕ → ℕ} (h : ∀ a ∈ l, p a = q a ∧ f a = g a) :
    (l.find? p).map f = (l.find? q).map g := by
  induction l with
  | nil => rfl
  | cons a l ih =>
    obtain ⟨hp, hf⟩ := h a List.mem_cons_self
    rw [List.find?_cons, List.find?_cons, hp]
    cases q a with
    | true => rw [Option.map_some, Option.map_some, hf]
    | false => exact ih fun b hb => h b (List.mem_cons_of_mem a hb)

theorem word_lower (s : List Char) :
    word C s false = ((List.range (run s (upper C) + 1)).reverse.find? fun a => 0 < run (s.drop a) (lower C)).map
      fun a => a + run (s.drop a) (lower C) := by
  rw [word]
  simp only [Bool.false_eq_true, if_false, length_most]
  refine find?_map_congr fun a ha => ?_
  have hle : a ≤ run s (upper C) := by
    rw [List.mem_reverse, List.mem_range] at ha
    omega
  have hlength := length_lower hle
  refine ⟨?_, congrArg (a + ·) hlength⟩
  rw [decide_eq_decide]
  omega

theorem findSome?_find? {α β : Type} {l : List α} {p : α → Bool} {f : α → Option β} {g : α → β}
    (h : ∀ a, f a = if p a then some (g a) else none) : l.findSome? f = (l.find? p).map g := by
  induction l with
  | nil => rfl
  | cons a l ih =>
    rw [List.findSome?_cons, List.find?_cons, h]
    cases p a with
    | true => rfl
    | false => exact ih

theorem run_pos_iff {p : Char → Bool} : 0 < run s p ↔ s.head?.any p := by
  cases s with
  | nil => simp [run]
  | cons c s =>
    rw [run, List.takeWhile_cons, List.head?_cons, Option.any_some]
    split_ifs with h <;> simp [h]

theorem first_plus_if (p : Char → Bool) (s : List Char) :
    (plus (chr p)).first s = if 0 < run s p then some (s.drop (run s p)) else none := by
  rw [first_plus_chr, drop_run]
  simp only [run_pos_iff]

/-- `U*W+`: the longest run of `U` that a `W` follows. -/
theorem first_lower (s : List Char) :
    (seq (star (chr (upper C))) (plus (chr (lower C)))).first s = (word C s false).map fun n => s.drop n := by
  rw [first_seq_star_chr, backs_eq, List.findSome?_map, word_lower, Option.map_map]
  refine findSome?_find? fun a => ?_
  rw [Function.comp_apply, first_plus_if, Function.comp_apply, List.drop_drop]
  simp only [decide_eq_true_eq]

/-- `U+W*` -/
theorem first_upper (s : List Char) :
    (seq (plus (chr (upper C))) (star (chr (lower C)))).first s = (word C s true).map fun n => s.drop n := by
  rw [first_seq_of_total (total_star_chr _), first_plus_if, word_upper]
  split_ifs
  · rw [Option.bind_some, first_star_chr, ← drop_run, List.drop_drop]
    rfl
  · rfl

theorem word_pos {first : Bool} {n : ℕ} (h : word C s first = some n) : 0 < n := by
  cases first with
  | true =>
    rw [word_upper] at h
    split_ifs at h with hpos
    cases h
    omega
  | false =>
    rw [word_lower, Option.map_eq_some_iff] at h
    obtain ⟨a, ha, rfl⟩ := h
    have hpos := List.find?_some ha
    simp only [decide_eq_true_eq] at hpos
    omega

/-! ## o200k -/

variable (C) in
/-- A word alternative with its optional first character, then without it. -/
def wordAt (s : List Char) (first : Bool) : Option ℕ :=
  ((if front C (s.head?.getD ' ') then [1] else []) ++ [0]).findSome? fun start =>
    (word C (s.drop start) first).map fun n => start + n

theorem wordAt_pos {first : Bool} {n : ℕ} (h : wordAt C s first = some n) : 0 < n := by
  obtain ⟨start, -, hstart⟩ := List.exists_of_findSome?_eq_some h
  obtain ⟨m, hm, rfl⟩ := Option.map_eq_some_iff.mp hstart
  have hpos := word_pos hm
  omega

theorem first_wordAt {a : Pat Char} {first : Bool} (h : ∀ t, a.first t = (word C t first).map fun n => t.drop n) (c : Char)
    (t : List Char) :
    (seq (opt (chr (front C))) a).first (c :: t) = (wordAt C (c :: t) first).map fun n => (c :: t).drop n := by
  rw [first_seq_opt_chr, wordAt, List.head?_cons, Option.getD_some, h, h]
  by_cases hfront : front C c
  · rw [if_pos hfront, if_pos hfront]
    simp only [List.cons_append, List.nil_append, List.findSome?_cons, List.findSome?_nil, List.drop_succ_cons,
      List.drop_zero]
    cases word C t first with
    | some n =>
      rw [Option.map_some, Option.map_some, Option.map_some, Option.some_or, Nat.add_comm]
      rfl
    | none => cases word C (c :: t) first <;> simp
  · rw [if_neg hfront, if_neg hfront]
    cases hword : word C (c :: t) first <;> simp [hword]

theorem o200k_eq (c : Char) (t : List Char) :
    o200k C (c :: t) =
      match (wordAt C (c :: t) false).or (wordAt C (c :: t) true) with
      | some stop => stop + (contraction ((c :: t).drop stop) true).getD 0
      | none =>
        if C.is_numeric c then runOf (c :: t) 3 C.is_numeric
        else rest C (c :: t) (((c :: t).drop (skip (c :: t))).head?.any (symbol C)) true := by
  have hsecond : (c :: t)[1]? = t.head? := by rw [List.getElem?_cons_succ, List.head?_eq_getElem?]
  have hfront : (!newline c && !C.is_letter c && !C.is_numeric c) = front C c := by simp [front]
  rw [o200k, ← symbols_eq]
  simp only [hsecond, hfront, List.head?_cons, Option.getD_some, List.flatMap_cons, List.flatMap_nil, List.append_nil,
    List.findSome?_append, List.findSome?_map, Function.comp_def, wordAt]
  rfl

/-- A contraction behind a word, but for the long s. -/
theorem first_opt_contractions (r : List Char) :
    (opt (contractions true)).first r = some (r.drop ((contraction r true).getD 0)) ↔
      ¬∃ rest, r = '\'' :: 'ſ' :: rest := by
  by_cases hlong : ∃ rest, r = '\'' :: 'ſ' :: rest
  · refine iff_of_false ?_ (not_not_intro hlong)
    obtain ⟨rest, rfl⟩ := hlong
    rw [first_opt, first_contractions_long, contraction_long, Option.some_or, Option.getD_none, List.drop_zero,
      Option.some_inj]
    intro hsame
    have hlength := congrArg List.length hsame
    rw [List.length_cons, List.length_cons] at hlength
    omega
  · refine iff_of_true ?_ hlong
    rw [first_opt, first_contractions fun _ rest hrest => hlong ⟨rest, hrest⟩]
    cases contraction r true <;> rfl

/-- Where no word starts there is no letter. -/
theorem not_letter_of_wordAt {c : Char} {t : List Char} (hlower : wordAt C (c :: t) false = none)
    (hupper : wordAt C (c :: t) true = none) : C.is_letter c = false := by
  have hnone (first : Bool) (h : wordAt C (c :: t) first = none) : word C (c :: t) first = none := by
    have hzero := List.findSome?_eq_none_iff.mp h 0 (List.mem_append_right _ (List.mem_singleton.mpr rfl))
    rwa [List.drop_zero, Option.map_eq_none_iff] at hzero
  have hl := hnone false hlower
  have hu := hnone true hupper
  rw [word_lower, Option.map_eq_none_iff] at hl
  rw [word_upper] at hu
  have hnotlower : ¬lower C c := by
    intro hc
    have hpos : 0 < run ((c :: t).drop 0) (lower C) := run_pos hc
    have hzero := List.find?_eq_none.mp hl 0 (List.mem_reverse.mpr (List.mem_range.mpr (Nat.succ_pos _)))
    exact hzero (decide_eq_true hpos)
  have hnotupper : ¬upper C c := by
    intro hc
    have hpos : 0 < run (c :: t) (upper C) := run_pos hc
    rw [if_pos hpos] at hu
    cases hu
  rw [upper_iff] at hnotupper
  rw [lower_iff] at hnotlower
  exact not_letter_of_kind (by omega)

/-- The o200k scanner takes what the pattern takes, unless a long s makes a contraction behind the word. -/
theorem o200k_first (hs : s ≠ []) :
    ((pattern C .o200k).first s = some (s.drop (o200k C s)) ↔ ¬LongS C .o200k s) ∧ 0 < o200k C s := by
  obtain ⟨c, t, rfl⟩ := List.exists_cons_of_ne_nil hs
  have hlower : (lowerWord C).first (c :: t) = _ := first_wordAt first_lower c t
  have hupper : (upperWord C).first (c :: t) = _ := first_wordAt first_upper c t
  have hengine : (pattern C .o200k).first (c :: t) =
      match (wordAt C (c :: t) false).or (wordAt C (c :: t) true) with
      | some n => (opt (contractions true)).first ((c :: t).drop n)
      | none => ((digits C).first (c :: t)).or ((anyOf (signs C true ++ blanks C)).first (c :: t)) := by
    rw [pattern, first_anyOf_cons, first_anyOf_cons, first_anyOf_cons, first_seq_of_total (total_opt _),
      first_seq_of_total (total_opt _), hlower, hupper]
    have hsome (n : ℕ) (o : Option (List Char)) : ((opt (contractions true)).first ((c :: t).drop n)).or o =
        (opt (contractions true)).first ((c :: t).drop n) := by
      obtain ⟨r, hr⟩ := total_opt (contractions true) ((c :: t).drop n)
      rw [hr, Option.some_or]
    cases wordAt C (c :: t) false with
    | some n => exact hsome n _
    | none =>
      cases wordAt C (c :: t) true with
      | some n => exact hsome n _
      | none => rfl
  have hlong : LongS C .o200k (c :: t) ↔ ∃ n, (wordAt C (c :: t) false).or (wordAt C (c :: t) true) = some n ∧
      ∃ rest, (c :: t).drop n = '\'' :: 'ſ' :: rest := by
    have hor : (alt (lowerWord C) (upperWord C)).first (c :: t) =
        ((wordAt C (c :: t) false).or (wordAt C (c :: t) true)).map fun n => (c :: t).drop n := by
      rw [first_alt, hlower, hupper]
      cases wordAt C (c :: t) false <;> rfl
    rw [LongS, hor]
    constructor
    · rintro ⟨rest, hrest⟩
      obtain ⟨n, hn, hdrop⟩ := Option.map_eq_some_iff.mp hrest
      exact ⟨n, hn, rest, hdrop⟩
    · rintro ⟨n, hn, rest, hdrop⟩
      exact ⟨rest, Option.map_eq_some_iff.mpr ⟨n, hn, hdrop⟩⟩
  rw [hengine, o200k_eq, hlong]
  cases hword : (wordAt C (c :: t) false).or (wordAt C (c :: t) true) with
  | some n =>
    have hpos : 0 < n := by
      obtain h | ⟨-, h⟩ := Option.or_eq_some_iff.mp hword
      · exact wordAt_pos h
      · exact wordAt_pos h
    have hbehind := first_opt_contractions ((c :: t).drop n)
    rw [List.drop_drop] at hbehind
    refine ⟨?_, Nat.add_pos_left hpos _⟩
    simp only [Option.some_inj, exists_eq_left']
    exact hbehind
  | none =>
    obtain ⟨hl, hu⟩ := Option.or_eq_none_iff.mp hword
    have hletter := not_letter_of_wordAt hl hu
    have hnot : ¬∃ n, (none : Option ℕ) = some n ∧ ∃ rest, (c :: t).drop n = '\'' :: 'ſ' :: rest := by simp
    cases hn : C.is_numeric c with
    | true =>
      obtain ⟨hdigits, hpos⟩ := first_digits (C := C) (s := c :: t) hn
      simp only [if_true]
      rw [hdigits]
      exact ⟨iff_of_true rfl hnot, hpos⟩
    | false =>
      obtain ⟨hrest, hpos⟩ := first_rest (C := C) (s := c :: t) true fun h => whitespace_of_not_symbols hletter hn h
      simp only [Bool.false_eq_true, if_false]
      have hdigit : (c :: t).head?.any C.is_numeric = false := hn
      rw [first_digits_none hdigit, hrest]
      exact ⟨iff_of_true rfl hnot, hpos⟩

/-! ## Within the text -/

theorem run_le (keep : Char → Bool) (s : List Char) : run s keep ≤ s.length := (List.takeWhile_prefix keep).length_le

theorem add_run_le {k : ℕ} (keep : Char → Bool) (h : k ≤ s.length) : k + run (s.drop k) keep ≤ s.length := by
  have hrun := run_le keep (s.drop k)
  rw [List.length_drop] at hrun
  omega

theorem runOf_le (most : ℕ) (keep : Char → Bool) (s : List Char) : runOf s most keep ≤ s.length :=
  (List.takeWhile_prefix keep).length_le.trans (List.take_prefix most s).length_le

theorem contraction_le {fold : Bool} {n : ℕ} (h : contraction s fold = some n) : n ≤ s.length := by
  unfold contraction at h
  grind

theorem skip_le (s : List Char) : skip s ≤ s.length := by
  cases s with
  | nil => exact Nat.le_refl 0
  | cons c s =>
    rw [skip]
    split_ifs <;> simp

theorem spaces_le (s : List Char) : spaces C s ≤ s.length := by
  have hrun := run_le C.is_whitespace s
  rw [spaces]
  split_ifs <;> omega

theorem rfind_lt {p : Char → Bool} {l : List Char} {i : ℕ} (h : rfind p l = some i) : i < l.length := by
  induction l generalizing i with
  | nil => cases h
  | cons c l ih =>
    rw [rfind] at h
    cases hl : rfind p l with
    | some j =>
      rw [hl] at h
      cases h
      exact Nat.succ_lt_succ (ih hl)
    | none =>
      rw [hl] at h
      split_ifs at h
      cases h
      exact Nat.succ_pos _

theorem rest_le (s : List Char) (symbols slash : Bool) : rest C s symbols slash ≤ s.length := by
  cases symbols with
  | true =>
    rw [rest_symbols]
    exact add_run_le _ (add_run_le _ (skip_le s))
  | false =>
    rw [rest_spaces]
    cases hlast : rfind newline (s.takeWhile C.is_whitespace) with
    | some i => exact (rfind_lt hlast).trans_le (List.takeWhile_prefix _).length_le
    | none => exact spaces_le s

theorem gpt2_le (s : List Char) : gpt2 C s ≤ s.length := by
  cases hcontraction : contraction s false with
  | some n =>
    rw [gpt2, hcontraction]
    exact contraction_le hcontraction
  | none =>
    rw [gpt2_eq hcontraction]
    split_ifs
    · exact add_run_le _ (skip_le s)
    · exact add_run_le _ (skip_le s)
    · exact add_run_le _ (skip_le s)
    · exact spaces_le s

theorem cl100k_le (c : Char) (t : List Char) : cl100k C (c :: t) ≤ (c :: t).length := by
  cases hcontraction : contraction (c :: t) true with
  | some n =>
    rw [cl100k, hcontraction]
    exact contraction_le hcontraction
  | none =>
    rw [cl100k_eq hcontraction]
    split_ifs
    · exact run_le _ _
    · exact runOf_le _ _ _
    · have hrun := run_le C.is_letter t
      rw [List.length_cons]
      omega
    · exact rest_le _ _ _

theorem word_le {first : Bool} {n : ℕ} (h : word C s first = some n) : n ≤ s.length := by
  cases first with
  | true =>
    rw [word_upper] at h
    split_ifs at h
    cases h
    exact add_run_le _ (run_le _ s)
  | false =>
    rw [word_lower, Option.map_eq_some_iff] at h
    obtain ⟨a, ha, rfl⟩ := h
    have hmem := List.mem_of_find?_eq_some ha
    rw [List.mem_reverse, List.mem_range] at hmem
    exact add_run_le _ ((Nat.le_of_lt_succ hmem).trans (run_le _ s))

theorem wordAt_le {c : Char} {t : List Char} {first : Bool} {n : ℕ} (h : wordAt C (c :: t) first = some n) :
    n ≤ (c :: t).length := by
  obtain ⟨start, hstart, hword⟩ := List.exists_of_findSome?_eq_some h
  obtain ⟨m, hm, rfl⟩ := Option.map_eq_some_iff.mp hword
  have hle : start ≤ 1 := by
    split_ifs at hstart <;> simp at hstart <;> omega
  have hm' := word_le hm
  rw [List.length_drop, List.length_cons] at hm'
  rw [List.length_cons]
  omega

theorem o200k_le (c : Char) (t : List Char) : o200k C (c :: t) ≤ (c :: t).length := by
  rw [o200k_eq]
  cases hword : (wordAt C (c :: t) false).or (wordAt C (c :: t) true) with
  | some n =>
    have hn : n ≤ (c :: t).length := by
      obtain h | ⟨-, h⟩ := Option.or_eq_some_iff.mp hword <;> exact wordAt_le h
    have hlength : ((c :: t).drop n).length = (c :: t).length - n := List.length_drop
    dsimp only
    cases hcontraction : contraction ((c :: t).drop n) true with
    | some m =>
      have hm := contraction_le hcontraction
      rw [hlength] at hm
      exact Nat.add_le_of_le_sub' hn hm
    | none => simpa using hn
  | none =>
    dsimp only
    split_ifs
    · exact runOf_le _ _ _
    · exact rest_le _ _ _

end Chatlink.Token.Pieces
