import Chatlink.Text.Python

/-!
# Pieces of a text

A piece `t` of a text `s` is bounded by a class of characters when it stands between
characters of that class or at the ends of `s`. Stripping, splitting on separators
and joining lines all keep such bounds, and a run of a class that is bounded by other
characters is one of the runs of the text.
-/
namespace Chatlink.Texto

/-- `t` stands in `s` between characters of class `p` or the ends of `s`. -/
def Acotado (p : Char → Bool) (t s : Texto) : Prop :=
  ∃ pre post, s = pre ++ t ++ post ∧ (∀ c ∈ pre.getLast?, p c) ∧ (∀ c ∈ post.head?, p c)

namespace Acotado

variable {p q : Char → Bool} {r s t : Texto}

theorem refl (p : Char → Bool) (t : Texto) : Acotado p t t := ⟨[], [], by simp, by simp, by simp⟩

theorem trans (h : Acotado p t s) (k : Acotado p s r) : Acotado p t r := by
  obtain ⟨a, b, rfl, ha, hb⟩ := h
  obtain ⟨c, d, rfl, hc, hd⟩ := k
  refine ⟨c ++ a, b ++ d, by simp, ?_, ?_⟩
  · intro x hx
    cases a using List.reverseRecOn with
    | nil => exact hc x (by simpa using hx)
    | append_singleton a y => exact ha x (by simpa using hx)
  · intro x hx
    cases b with
    | nil => exact hd x (by simpa using hx)
    | cons y b => exact hb x (by simpa using hx)

theorem mono (hpq : ∀ c, p c → q c) (h : Acotado p t s) : Acotado q t s := by
  obtain ⟨a, b, hs, ha, hb⟩ := h
  exact ⟨a, b, hs, fun c hc => hpq c (ha c hc), fun c hc => hpq c (hb c hc)⟩

theorem isInfix (h : Acotado p t s) : t <:+: s := by
  obtain ⟨a, b, rfl, -, -⟩ := h
  exact ⟨a, b, rfl⟩

theorem reverse (h : Acotado p t s) : Acotado p t.reverse s.reverse := by
  obtain ⟨a, b, rfl, ha, hb⟩ := h
  refine ⟨b.reverse, a.reverse, by simp, ?_, ?_⟩
  · simpa using hb
  · simpa using ha

end Acotado

/-! ## Stripping -/

section Strip

variable (p : Char → Bool) (s : Texto)

theorem acotado_lstripBy : Acotado p (lstripBy p s) s := by
  refine ⟨s.takeWhile p, [], by simp [lstripBy], ?_, by simp⟩
  intro c hc
  exact List.all_eq_true.mp List.all_takeWhile c (List.mem_of_getLast? hc)

theorem acotado_rstripBy : Acotado p (rstripBy p s) s := by
  have h := (acotado_lstripBy p s.reverse).reverse
  rwa [List.reverse_reverse] at h

theorem acotado_stripBy : Acotado p (stripBy p s) s :=
  (acotado_rstripBy p _).trans (acotado_lstripBy p s)

end Strip

/-! ## Splitting on separators -/

section Split

variable {p : Char → Bool}

/-- A token stands between separators. Inside a run of separators no token is begun. -/
theorem acotado_of_mem_splitOnRuns {t : Texto} (s : Texto) (inRun : Bool) (acc : Texto)
    (hacc : inRun → acc = []) (h : t ∈ splitOnRuns p inRun acc s) :
    Acotado p t (acc.reverse ++ s) := by
  induction s generalizing inRun acc with
  | nil =>
    obtain rfl := List.mem_singleton.mp h
    rw [List.append_nil]
    exact Acotado.refl p _
  | cons c s ih =>
    -- a token of the rest of the text has the separator `c` before it
    have hrest (hc : p c) (h' : t ∈ splitOnRuns p true [] s) :
        Acotado p t (acc.reverse ++ c :: s) := by
      refine (ih true [] (fun _ => rfl) h').trans ⟨acc.reverse ++ [c], [], by simp, ?_, by simp⟩
      simpa using hc
    unfold splitOnRuns at h
    split at h
    · next hc =>
      split at h
      · next hr =>
        obtain rfl := hacc hr
        exact hrest hc h
      · rcases List.mem_cons.mp h with rfl | h
        · refine ⟨[], c :: s, by simp, by simp, ?_⟩
          simpa using hc
        · exact hrest hc h
    · simpa using ih false (c :: acc) (by simp) h

/-- A token holds no separator. -/
theorem not_sep_of_mem_splitOnRuns {t : Texto} (s : Texto) (inRun : Bool) (acc : Texto)
    (hacc : ∀ c ∈ acc, p c = false) (h : t ∈ splitOnRuns p inRun acc s) :
    ∀ c ∈ t, p c = false := by
  induction s generalizing inRun acc with
  | nil =>
    obtain rfl := List.mem_singleton.mp h
    simpa using hacc
  | cons c s ih =>
    unfold splitOnRuns at h
    split at h
    · split at h
      · exact ih true acc hacc h
      · rcases List.mem_cons.mp h with rfl | h
        · simpa using hacc
        · exact ih true [] (by simp) h
    · next hc =>
      refine ih false (c :: acc) ?_ h
      intro d hd
      rcases List.mem_cons.mp hd with rfl | hd
      · simpa using hc
      · exact hacc d hd

end Split

/-! ## Lines -/

/-- A piece without a line end that is bounded in joined lines is bounded in one of them. -/
theorem acotado_of_join {p : Char → Bool} {t : Texto} (ht : '\n' ∉ t) (hne : t ≠ [])
    (lines : List Texto) (h : Acotado p t (join ['\n'] lines)) : ∃ l ∈ lines, Acotado p t l := by
  induction lines with
  | nil =>
    obtain ⟨a, b, hs, -, -⟩ := h
    have h0 : a ++ t ++ b = [] := hs.symm
    simp [hne] at h0
  | cons l lines ih =>
    cases lines with
    | nil => exact ⟨l, List.mem_singleton.mpr rfl, by simpa [join, List.intercalate] using h⟩
    | cons l' lines =>
      have hjoin : join ['\n'] (l :: l' :: lines) = l ++ '\n' :: join ['\n'] (l' :: lines) := by
        simp [join, List.intercalate, List.intersperse]
      obtain ⟨a, b, hs, ha, hb⟩ := h
      rw [hjoin] at hs
      rcases List.append_eq_append_iff.mp hs with ⟨u, hu, hv⟩ | ⟨u, hu, hv⟩
      · rcases List.append_eq_append_iff.mp hu with ⟨v, rfl, rfl⟩ | ⟨v, rfl, rfl⟩
        · -- the piece ends before the line end, exactly where `l` does
          cases u with
          | nil => exact ⟨_, List.mem_cons_self, a, [], by simp, ha, by simp⟩
          | cons c u =>
            obtain ⟨rfl, -⟩ := List.cons.inj hv
            simp at ht
        · -- the piece begins after the line end
          cases v with
          | nil =>
            cases t with
            | nil => exact absurd rfl hne
            | cons c t =>
              obtain ⟨rfl, -⟩ := List.cons.inj hv
              simp at ht
          | cons c v =>
            obtain ⟨rfl, hrest⟩ := List.cons.inj hv
            have hbound : Acotado p t (join ['\n'] (l' :: lines)) := by
              refine ⟨v, b, by simpa using hrest, ?_, hb⟩
              intro x hx
              apply ha x
              rw [List.getLast?_append]
              cases v with
              | nil => simp at hx
              | cons y v => simp_all
            obtain ⟨m, hm, hmt⟩ := ih hbound
            exact ⟨m, List.mem_cons_of_mem l hm, hmt⟩
      · -- the piece ends inside `l`
        refine ⟨l, List.mem_cons_self, a, u, hu, ha, ?_⟩
        intro x hx
        apply hb x
        rw [hv, List.head?_append]
        simp_all

theorem contains_iff (s sub : Texto) : contains s sub ↔ sub <:+: s := by
  induction s with
  | nil => simp [contains]
  | cons c s ih => simp [contains, ih, List.infix_cons_iff]

/-! ## Runs of a class -/

section Runs

variable {p : Char → Bool} {q : Texto}

theorem runsFrom_append_of_all (hq : ∀ c ∈ q, p c) (acc b : Texto) :
    runsFrom p acc (q ++ b) = runsFrom p (q.reverse ++ acc) b := by
  induction q generalizing acc with
  | nil => rfl
  | cons c q ih =>
    have hc : p c := hq c List.mem_cons_self
    rw [List.cons_append, runsFrom, if_pos hc, ih fun d hd => hq d (List.mem_cons_of_mem c hd)]
    simp

/-- A run in progress ends where its class does. -/
theorem mem_runsFrom_of_ends {acc b : Texto} (hacc : acc ≠ [])
    (hb : ∀ c ∈ b.head?, p c = false) : acc.reverse ∈ runsFrom p acc b := by
  cases b with
  | nil => simp [runsFrom, hacc]
  | cons c b =>
    have hc : p c = false := hb c (by simp)
    simp [runsFrom, hc, hacc]

/-- Text before a run does not hide it when it ends outside the class. -/
theorem mem_runsFrom_append {rest : Texto} (hq : q ∈ runsFrom p [] rest) (a acc : Texto)
    (hacc : a = [] → acc = []) (ha : ∀ c ∈ a.getLast?, p c = false) :
    q ∈ runsFrom p acc (a ++ rest) := by
  induction a generalizing acc with
  | nil => rwa [hacc rfl]
  | cons c a ih =>
    have htail : ∀ d ∈ a.getLast?, p d = false := by
      intro d hd
      apply ha d
      cases a with
      | nil => simp at hd
      | cons e a => simpa using hd
    rw [List.cons_append, runsFrom]
    split
    · next hc =>
      apply ih _ ?_ htail
      rintro rfl
      have := ha c (by simp)
      simp [hc] at this
    · have hrest := ih [] (fun _ => rfl) htail
      split
      · exact hrest
      · exact List.mem_cons_of_mem _ hrest

/-- A piece of the class bounded by other characters is a run of the text. -/
theorem mem_runs {s : Texto} (h : Acotado (fun c => !p c) q s) (hne : q ≠ [])
    (hq : ∀ c ∈ q, p c) : q ∈ runs p s := by
  obtain ⟨a, b, rfl, ha, hb⟩ := h
  rw [List.append_assoc]
  refine mem_runsFrom_append ?_ a [] (fun _ => rfl) (by simpa using ha)
  rw [runsFrom_append_of_all hq, List.append_nil]
  have hend : q.reverse.reverse ∈ runsFrom p q.reverse b :=
    mem_runsFrom_of_ends (by simpa using hne) (by simpa using hb)
  rwa [List.reverse_reverse] at hend

end Runs

/-! ## Numbers -/

theorem stripBy_eq_self {p : Char → Bool} {s : Texto} (h : ∀ c ∈ s, p c = false) :
    stripBy p s = s := by
  have hdrop {t : Texto} (ht : ∀ c ∈ t, p c = false) : t.dropWhile p = t := by
    cases t with
    | nil => rfl
    | cons c t => rw [List.dropWhile_cons_of_neg (by simp [ht c List.mem_cons_self])]
  rw [stripBy, lstripBy, hdrop h, rstripBy, hdrop (by simpa using h), List.reverse_reverse]

end Chatlink.Texto

namespace Chatlink.Unicode

variable {U : Unicode} {t : Texto}

/-- A decimal digit is none of the signs an integer literal may hold. -/
theorem ne_sign_of_decimal {c : Char} (h : U.isDecimal c) : c ≠ '_' ∧ c ≠ '-' ∧ c ≠ '+' := by
  refine ⟨?_, ?_, ?_⟩ <;>
  · rintro rfl
    rw [isDecimal, U.decimal_ascii _ (by decide)] at h
    simp at h

theorem intDigits_of_decimal (h : ∀ c ∈ t, U.isDecimal c) (n : ℕ) :
    U.intDigits (some n) t =
      some (t.foldl (fun n c => 10 * n + (U.decimal c).getD 0) n) := by
  induction t generalizing n with
  | nil => rfl
  | cons c t ih =>
    have hc := h c List.mem_cons_self
    obtain ⟨d, hd⟩ := Option.isSome_iff_exists.mp hc
    have hstep : U.intDigits (some n) (c :: t) = U.intDigits (some (10 * n + d)) t := by
      rw [intDigits]
      · simp [hd]
      · exact fun _ _ hu _ => (ne_sign_of_decimal hc).1 hu
    rw [hstep, ih (fun x hx => h x (List.mem_cons_of_mem c hx)), List.foldl_cons, hd]
    rfl

/-- A text of decimal digits is read as its number. -/
theorem intOf_of_decimal (hne : t ≠ []) (h : ∀ c ∈ t, U.isDecimal c) :
    U.intOf t = some (U.numberOf t : ℤ) := by
  have hstrip : Texto.strip t = t := by
    apply Texto.stripBy_eq_self
    intro c hc
    by_contra hsp
    have hdec := h c hc
    rw [isDecimal, U.decimal_space c (by simpa using hsp)] at hdec
    cases hdec
  cases t with
  | nil => exact absurd rfl hne
  | cons c t =>
    have hc := h c List.mem_cons_self
    obtain ⟨-, hminus, hplus⟩ := ne_sign_of_decimal hc
    obtain ⟨d, hd⟩ := Option.isSome_iff_exists.mp hc
    have hdig : U.intDigits none (c :: t) = some (U.numberOf (c :: t)) := by
      rw [intDigits, hd, Option.bind_some,
        intDigits_of_decimal fun x hx => h x (List.mem_cons_of_mem c hx)]
      simp [numberOf, hd]
    unfold intOf
    rw [hstrip]
    split
    · next heq => exact absurd (List.cons.inj heq).1 hminus
    · next heq => exact absurd (List.cons.inj heq).1 hplus
    · rw [hdig]
      rfl

end Chatlink.Unicode
