import Chatlink.Token.Pieces

/-!
# The patterns of the splitters

Each pattern as the engine reads it, and the parts that the scanners share: the classes of characters, contractions,
runs, white space, and symbols with line breaks. The scanners read each part as the engine does, but for the long s,
which the engine folds to an s.
-/
namespace Chatlink.Token.Pieces

open Choice Choice.Pat

variable (C : Categories)

/-! ## The patterns -/

/-- A letter of a contraction: itself or, in any case, what folds to it. -/
def folded (fold : Bool) (x c : Char) : Bool := c == x || fold && (c.toLower == x || x == 's' && c == 'ſ')

/-- `'s|'t|'re|'ve|'m|'ll|'d`, in any case if `fold`. -/
def contractions (fold : Bool) : Pat Char :=
  anyOf ([['s'], ['t'], ['r', 'e'], ['v', 'e'], ['m'], ['l', 'l'], ['d']].map fun w =>
    seq (chr (· == '\'')) (w.foldr (fun x a => seq (chr (folded fold x)) a) eps))

def blank (c : Char) : Bool := c == ' '

/-- `[^\s\p{L}\p{N}]` -/
def symbol (c : Char) : Bool := !(C.is_whitespace c || C.is_letter c || C.is_numeric c)

/-- `[^\r\n\p{L}\p{N}]` -/
def front (c : Char) : Bool := !(newline c || C.is_letter c || C.is_numeric c)

/-- `[\p{Lu}\p{Lt}\p{Lm}\p{Lo}\p{M}]` -/
def upper (c : Char) : Bool := C.kind c == 1 || C.kind c == 3 || C.kind c == 4

/-- `[\p{Ll}\p{Lm}\p{Lo}\p{M}]` -/
def lower (c : Char) : Bool := C.kind c == 2 || C.kind c == 3 || C.kind c == 4

/-- `\s+(?!\S)` and `\s+` -/
def blanks : List (Pat Char) :=
  [seq (plus (chr C.is_whitespace)) (.unless (chr fun c => !C.is_whitespace c)), plus (chr C.is_whitespace)]

/-- ` ?[^\s\p{L}\p{N}]+[\r\n]*`, or with a slash in the last class, and `\s*[\r\n]+` -/
def signs (slash : Bool) : List (Pat Char) :=
  [seq (opt (chr blank)) (seq (plus (chr (symbol C))) (star (chr fun c => newline c || slash && c == '/'))),
    seq (star (chr C.is_whitespace)) (plus (chr newline))]

/-- `\p{N}{1,3}` -/
def digits : Pat Char := seq (chr C.is_numeric) (upTo (chr C.is_numeric) 2)

/-- `[^\r\n\p{L}\p{N}]?U*W+` and `[^\r\n\p{L}\p{N}]?U+W*` -/
def lowerWord : Pat Char := seq (opt (chr (front C))) (seq (star (chr (upper C))) (plus (chr (lower C))))

def upperWord : Pat Char := seq (opt (chr (front C))) (seq (plus (chr (upper C))) (star (chr (lower C))))

/-- The regular expression of each pattern. -/
def pattern : Pattern → Pat Char
  | .gpt2 => anyOf (contractions false :: seq (opt (chr blank)) (plus (chr C.is_letter)) ::
      seq (opt (chr blank)) (plus (chr C.is_numeric)) :: seq (opt (chr blank)) (plus (chr (symbol C))) :: blanks C)
  | .cl100k => anyOf (contractions true :: seq (opt (chr (front C))) (plus (chr C.is_letter)) :: digits C ::
      (signs C false ++ blanks C))
  | .o200k => anyOf (seq (lowerWord C) (opt (contractions true)) :: seq (upperWord C) (opt (contractions true)) ::
      digits C :: (signs C true ++ blanks C))

/-- Where the scanner misses a contraction that makes a difference: an apostrophe, a long s and a letter, or a word
with an apostrophe and a long s behind it. -/
def LongS : Pattern → List Char → Prop
  | .gpt2, _ => False
  | .cl100k, s => ∃ x rest, s = '\'' :: 'ſ' :: x :: rest ∧ C.is_letter x
  | .o200k, s => ∃ rest, (alt (lowerWord C) (upperWord C)).first s = some ('\'' :: 'ſ' :: rest)

variable {C} {s : List Char}

/-! ## Classes -/

theorem is_letter_iff {c : Char} : C.is_letter c ↔ 1 ≤ C.kind c ∧ C.kind c ≤ 3 := by
  rw [Categories.is_letter, Nfc.is_letter, Bool.and_eq_true, decide_eq_true_iff, decide_eq_true_iff]
  rfl

theorem not_letter_of_kind {c : Char} (h : C.kind c = 0) : C.is_letter c = false := by
  rw [Bool.eq_false_iff]
  intro hc
  have hkind := is_letter_iff.mp hc
  omega

theorem classOf_letter {c : Char} : C.classOf c = .letter ↔ C.is_letter c := by
  unfold Categories.classOf
  split_ifs with h <;> simp [h]

theorem classOf_number {c : Char} : C.classOf c = .number ↔ C.is_numeric c := by
  unfold Categories.classOf
  have hnot : C.is_numeric c → C.is_letter c = false := fun h => not_letter_of_kind (C.kind_numeric c h)
  split_ifs <;> simp_all

theorem classOf_space {c : Char} : C.classOf c = .space ↔ C.is_whitespace c := by
  unfold Categories.classOf
  have hletter : C.is_whitespace c → C.is_letter c = false := fun h => not_letter_of_kind (C.kind_whitespace c h)
  have hnumeric := C.numeric_whitespace c
  split_ifs <;> simp_all

theorem classOf_other {c : Char} : C.classOf c = .other ↔ symbol C c := by
  unfold Categories.classOf symbol
  split_ifs <;> simp_all

/-- What the class of a character says of the three kinds of runs. -/
theorem class_cases (c : Char) :
    (C.classOf c = .letter ∧ C.is_letter c ∧ C.is_numeric c = false ∧ symbol C c = false) ∨
    (C.classOf c = .number ∧ C.is_letter c = false ∧ C.is_numeric c ∧ symbol C c = false) ∨
    (C.classOf c = .other ∧ C.is_letter c = false ∧ C.is_numeric c = false ∧ symbol C c) ∨
    (C.classOf c = .space ∧ C.is_letter c = false ∧ C.is_numeric c = false ∧ symbol C c = false) := by
  have hletter := classOf_letter (C := C) (c := c)
  have hnumber := classOf_number (C := C) (c := c)
  have hspace := classOf_space (C := C) (c := c)
  have hother := classOf_other (C := C) (c := c)
  cases hc : C.classOf c <;> simp_all

theorem letter_class : (fun c => decide (C.classOf c = .letter)) = C.is_letter := by
  funext c
  rw [Bool.eq_iff_iff, decide_eq_true_iff, classOf_letter]

theorem number_class : (fun c => decide (C.classOf c = .number)) = C.is_numeric := by
  funext c
  rw [Bool.eq_iff_iff, decide_eq_true_iff, classOf_number]

theorem other_class : (fun c => decide (C.classOf c = .other)) = symbol C := by
  funext c
  rw [Bool.eq_iff_iff, decide_eq_true_iff, classOf_other]

theorem whitespace_blank : C.is_whitespace ' ' := by
  rw [C.ascii_whitespace ' ' (by decide)]
  decide

theorem classOf_blank : C.classOf ' ' = .space := classOf_space.mpr whitespace_blank

theorem blank_classes : C.is_letter ' ' = false ∧ C.is_numeric ' ' = false ∧ symbol C ' ' = false := by
  obtain ⟨hclass, -⟩ | ⟨hclass, -⟩ | ⟨hclass, -⟩ | ⟨-, hclasses⟩ := class_cases (C := C) ' '
  · cases classOf_blank.symm.trans hclass
  · cases classOf_blank.symm.trans hclass
  · cases classOf_blank.symm.trans hclass
  · exact hclasses

/-! ## Contractions -/

theorem folded_eq {fold : Bool} {k c : Char} (hk : k.toLower = k) (h : k = 's' → c ≠ 'ſ') :
    folded fold k c = ((if fold then c.toLower else c) == k) := by
  cases fold with
  | false => simp [folded]
  | true =>
    have hlong : (k == 's' && c == 'ſ') = false := by simpa using h
    have hself : c = k → c.toLower = k := by
      rintro rfl
      exact hk
    rw [Bool.eq_iff_iff]
    simp only [folded, hlong, Bool.or_false, Bool.true_and, if_true, Bool.or_eq_true, beq_iff_eq]
    tauto

/-- But for the long s, the scanner reads the contractions of the pattern. -/
theorem first_contractions {fold : Bool} (h : fold = true → ∀ rest, s ≠ '\'' :: 'ſ' :: rest) :
    (contractions fold).first s = (contraction s fold).map fun n => s.drop n := by
  cases s with
  | nil => rfl
  | cons c s =>
    by_cases hc : c = '\''
    · subst hc
      cases s with
      | nil => simp [contractions, first_anyOf_cons, first_anyOf_nil, first_seq_chr, contraction]
      | cons x u =>
        have hx (k : Char) (hk : k.toLower = k) : folded fold k x = ((if fold then x.toLower else x) == k) := by
          cases fold with
          | false => simp [folded]
          | true => exact folded_eq hk fun _ hlong => h rfl u (by rw [hlong])
        rw [contractions]
        simp only [List.map_cons, List.map_nil, first_anyOf_cons, first_anyOf_nil, first_seq_chr, beq_self_eq_true,
          if_true, contraction]
        generalize hlower : (if fold then x.toLower else x) = lx at hx
        cases u with
        | nil =>
          by_cases hs : lx = 's'
          · simp [first_seq_chr, hx, hlower, hs]
          by_cases ht : lx = 't'
          · simp [first_seq_chr, hx, hlower, ht]
          by_cases hm : lx = 'm'
          · simp [first_seq_chr, hx, hlower, hm]
          by_cases hd : lx = 'd'
          · simp [first_seq_chr, hx, hlower, hd]
          simp [first_seq_chr, hx, hlower, hs, ht, hm, hd]
        | cons y v =>
          have hy (k : Char) (hk : k.toLower = k) (hs : k ≠ 's') :
              folded fold k y = ((if fold then y.toLower else y) == k) := folded_eq hk fun h => absurd h hs
          generalize hlower' : (if fold then y.toLower else y) = ly at hy
          by_cases hs : lx = 's'
          · simp [first_seq_chr, hx, hlower, hlower', hs]
          by_cases ht : lx = 't'
          · simp [first_seq_chr, hx, hlower, hlower', ht]
          by_cases hm : lx = 'm'
          · simp [first_seq_chr, hx, hlower, hlower', hm]
          by_cases hd : lx = 'd'
          · simp [first_seq_chr, hx, hlower, hlower', hd]
          by_cases hr : lx = 'r'
          · simp [first_seq_chr, hx, hy, hlower, hlower', hr]
          by_cases hv : lx = 'v'
          · simp [first_seq_chr, hx, hy, hlower, hlower', hv]
          by_cases hl : lx = 'l'
          · simp [first_seq_chr, hx, hy, hlower, hlower', hl]
          simp [first_seq_chr, hx, hlower, hlower', hs, ht, hm, hd, hr, hv, hl]
    · have hnone : contraction (c :: s) fold = none := by
        unfold contraction
        split
        next hcons =>
          cases hcons
          exact absurd rfl hc
        next => rfl
      rw [hnone]
      simp [contractions, first_anyOf_cons, first_anyOf_nil, first_seq_chr, hc]

/-- The engine folds the long s, the scanner does not. -/
theorem first_contractions_long (rest : List Char) : (contractions true).first ('\'' :: 'ſ' :: rest) = some rest := by
  have hs : folded true 's' 'ſ' = true := by decide
  simp [contractions, first_anyOf_cons, first_seq_chr, hs]

theorem contraction_long (rest : List Char) : contraction ('\'' :: 'ſ' :: rest) true = none := by
  have hlower : 'ſ'.toLower = 'ſ' := by decide
  simp [contraction, hlower]

theorem contraction_pos {fold : Bool} {n : ℕ} (h : contraction s fold = some n) : 0 < n := by
  unfold contraction at h
  grind

/-! ## Runs -/

theorem drop_run (keep : Char → Bool) (s : List Char) : s.drop (run s keep) = s.dropWhile keep := drop_takeWhile keep s

/-- The first character, if it is a blank. -/
def skip (s : List Char) : ℕ := if s.head? = some ' ' then 1 else 0

/-- An optional blank before what does not start with one. -/
theorem first_blank {a : Pat Char} (h : ∀ t, a.first (' ' :: t) = none) (s : List Char) :
    (seq (opt (chr blank)) a).first s = a.first (s.drop (skip s)) := by
  cases s with
  | nil => exact first_seq_opt_chr_nil
  | cons c s =>
    rw [first_seq_opt_chr, skip, List.head?_cons]
    by_cases hc : c = ' '
    · subst hc
      simp [h, blank]
    · simp [hc, blank]

theorem first_plus_blank {p : Char → Bool} (hp : p ' ' = false) (t : List Char) :
    (plus (chr p)).first (' ' :: t) = none := by
  rw [first_plus_chr, List.head?_cons, Option.any_some, hp]
  rfl

theorem first_plus_run {p : Char → Bool} (h : s.head?.any p) : (plus (chr p)).first s = some (s.drop (run s p)) := by
  rw [first_plus_chr, if_pos h, drop_run]

theorem first_plus_none {p : Char → Bool} (h : s.head?.any p = false) : (plus (chr p)).first s = none := by
  rw [first_plus_chr, if_neg (Bool.eq_false_iff.mp h)]

/-! ## White space -/

theorem run_pos {p : Char → Bool} (h : s.head?.any p) : 0 < run s p := by
  cases s with
  | nil => cases h
  | cons c s =>
    have hc : p c = true := h
    rw [run, List.takeWhile_cons, if_pos hc]
    exact Nat.succ_pos _

theorem spaces_pos (h : s.head?.any C.is_whitespace) : 0 < spaces C s := by
  have hrun := run_pos h
  rw [spaces]
  split_ifs <;> omega

/-- `\s+(?!\S)|\s+` where there is white space. -/
theorem first_blanks (h : s.head?.any C.is_whitespace) : (anyOf (blanks C)).first s = some (s.drop (spaces C s)) := by
  rw [blanks, first_anyOf_cons, first_anyOf_cons, first_plus_run h]
  cases s with
  | nil => cases h
  | cons c s =>
    have hc : C.is_whitespace c = true := h
    have hrun : run (c :: s) C.is_whitespace = run s C.is_whitespace + 1 := by
      rw [run, List.takeWhile_cons, if_pos hc]
      rfl
    have hdrop := drop_run C.is_whitespace s
    rw [first_seq_plus_chr, if_pos hc, findSome?_backs_unless, spaces, hrun]
    by_cases hend : s.dropWhile C.is_whitespace = []
    · rw [if_pos hend, if_neg]
      · rw [List.drop_succ_cons, hdrop, hend]
        rfl
      · rw [hend, List.drop_eq_nil_iff] at hdrop
        rw [List.length_cons]
        omega
    · have hlt : run s C.is_whitespace < s.length := by
        by_contra hle
        rw [List.drop_eq_nil_of_le (Nat.le_of_not_lt hle)] at hdrop
        exact hend hdrop.symm
      rw [if_neg hend]
      by_cases htake : s.takeWhile C.is_whitespace = []
      · have hzero : run s C.is_whitespace = 0 := by rw [run, htake, List.length_nil]
        rw [if_pos htake, hzero]
        simp
      · have hpos : 0 < run s C.is_whitespace := List.length_pos_of_ne_nil htake
        obtain ⟨n, hn⟩ := Nat.exists_eq_succ_of_ne_zero hpos.ne'
        rw [if_neg htake, if_pos ⟨by rw [List.length_cons]; omega, by omega⟩]
        change (some (s.drop (run s C.is_whitespace - 1))).or _ = _
        rw [Option.some_or, Nat.add_sub_cancel, hn]
        rfl

/-! ## Symbols and line breaks -/

theorem whitespace_of_newline {c : Char} (h : newline c) : C.is_whitespace c := by
  rw [newline, Bool.or_eq_true, beq_iff_eq, beq_iff_eq] at h
  obtain rfl | rfl := h <;> rw [C.ascii_whitespace _ (by decide)] <;> decide

theorem rfind_eq_none {p : Char → Bool} {l : List Char} (h : rfind p l = none) : ∀ c ∈ l, p c = false := by
  induction l with
  | nil => simp
  | cons x l ih =>
    rw [rfind] at h
    cases hl : rfind p l with
    | some i =>
      rw [hl] at h
      cases h
    | none =>
      rw [hl] at h
      intro c hc
      obtain rfl | hc := List.mem_cons.mp hc
      · by_contra hp
        rw [Bool.not_eq_false] at hp
        simp [hp] at h
      · exact ih hl c hc

/-- `\s*[\r\n]+` goes up to the last line break of the white space. -/
theorem findSome?_backs_newline (s : List Char) :
    (backs C.is_whitespace s).findSome? (plus (chr newline)).first =
      (rfind newline (s.takeWhile C.is_whitespace)).map fun i => s.drop (i + 1) := by
  induction s with
  | nil => rfl
  | cons x s ih =>
    rw [backs, List.takeWhile_cons]
    by_cases hx : C.is_whitespace x
    · rw [if_pos hx, if_pos hx, List.findSome?_append, ih, rfind]
      cases hlast : rfind newline (s.takeWhile C.is_whitespace) with
      | some i => simp
      | none =>
        have hstop : s.dropWhile newline = s := by
          cases s with
          | nil => rfl
          | cons y s =>
            have hy : newline y = false := by
              by_contra h
              rw [Bool.not_eq_false] at h
              rw [List.takeWhile_cons, if_pos (whitespace_of_newline h)] at hlast
              rw [rfind_eq_none hlast y List.mem_cons_self] at h
              cases h
            rw [List.dropWhile_cons, if_neg (by rw [hy]; exact Bool.false_ne_true)]
        by_cases hn : newline x <;> simp [first_plus_chr, hn, hstop]
    · have hn : newline x = false := by
        by_contra h
        rw [Bool.not_eq_false] at h
        exact hx (whitespace_of_newline h)
      simp [hx, rfind, first_plus_chr, hn]

theorem take_run (keep : Char → Bool) (s : List Char) : s.take (run s keep) = s.takeWhile keep :=
  (List.prefix_iff_eq_take.mp (List.takeWhile_prefix keep)).symm

theorem rest_symbols (slash : Bool) :
    rest C s true slash = skip s + run (s.drop (skip s)) (symbol C) +
      run (s.drop (skip s + run (s.drop (skip s)) (symbol C))) fun c => newline c || slash && c == '/' := by
  rw [rest, if_pos rfl, other_class]
  rfl

theorem rest_spaces (slash : Bool) :
    rest C s false slash = ((rfind newline (s.takeWhile C.is_whitespace)).map Nat.succ).getD (spaces C s) := by
  rw [rest, if_neg Bool.false_ne_true, ← take_run]
  dsimp only
  cases rfind newline (s.take (run s C.is_whitespace)) <;> rfl

/-- The last alternatives, where a symbol stands or white space. -/
theorem first_rest (slash : Bool) (hspace : (s.drop (skip s)).head?.any (symbol C) = false → s.head?.any C.is_whitespace) :
    (anyOf (signs C slash ++ blanks C)).first s =
        some (s.drop (rest C s ((s.drop (skip s)).head?.any (symbol C)) slash)) ∧
      0 < rest C s ((s.drop (skip s)).head?.any (symbol C)) slash := by
  have hbreak : ∀ t, (seq (plus (chr (symbol C))) (star (chr fun c => newline c || slash && c == '/'))).first (' ' :: t) =
      none := by
    intro t
    rw [first_seq_of_total (total_star_chr _), first_plus_blank blank_classes.2.2]
    rfl
  rw [signs, List.cons_append, List.cons_append, List.nil_append, first_anyOf_cons, first_anyOf_cons,
    first_blank hbreak, first_seq_of_total (total_star_chr _), first_seq_star_chr, findSome?_backs_newline]
  cases hsymbol : (s.drop (skip s)).head?.any (symbol C) with
  | true =>
    have hdrop := List.drop_drop (i := run (s.drop (skip s)) (symbol C)) (j := skip s) (l := s)
    rw [first_plus_run hsymbol, Option.bind_some, hdrop, first_star_chr, ← drop_run, List.drop_drop, rest_symbols]
    have hpos := run_pos hsymbol
    exact ⟨rfl, by omega⟩
  | false =>
    have hs := hspace hsymbol
    rw [first_plus_none hsymbol, rest_spaces]
    cases rfind newline (s.takeWhile C.is_whitespace) with
    | some last => exact ⟨rfl, Nat.succ_pos last⟩
    | none => exact ⟨first_blanks hs, spaces_pos hs⟩

end Chatlink.Token.Pieces
