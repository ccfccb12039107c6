import Chatlink.Token.Unicode

/-!
# The data of the standard

What the Unicode standard keeps of its characters: what they are made of, Hangul among them, and which of them compose.
A script with Hangul and one accented letter keeps it.
-/
namespace Chatlink.Token.Nfc

open Combining

variable {U : Script ℕ}

/-! ## The standard -/

/-- The syllable of a leading consonant, a vowel and a trailing consonant, or none. -/
def syllable (l v t : ℕ) : ℕ := S0 + (l * VN + v) * TN + t

/-- What the standard keeps of its characters: a Hangul syllable is made of its consonant and vowel, or of the syllable
without its trailing consonant and that, and consonants and vowels of nothing; only scalar values are made of others or
make them up; and below U+0300 every character starts, joins nothing before it, and comes back from what it is made of. -/
structure Standard (U : Script ℕ) : Prop where
  lawful : U.Lawful
  open_syllable : ∀ l < LN, ∀ v < VN, U.parts (syllable l v 0) = [L0 + l, V0 + v]
  closed_syllable : ∀ l < LN, ∀ v < VN, ∀ t < TN, 0 < t → U.parts (syllable l v t) = [syllable l v 0, T0 + t]
  consonant : ∀ l < LN, U.parts (L0 + l) = []
  free : ∀ c, Syllable c → ¬U.excluded c
  scalar : ∀ c, U.parts c ≠ [] → c.isValidChar ∧ ∀ a ∈ U.parts c, a.isValidChar
  low : U.Closed fun c => c < 0x300

/-! ## Syllables -/

theorem syllable_lt {l v s : ℕ} (hl : l < LN) (hv : v < VN) (hs : s < TN) : Syllable (syllable l v s) := by
  simp only [Syllable, syllable, S0, LN, VN, TN] at *
  omega

theorem exists_syllable {c : ℕ} (h : Syllable c) :
    ∃ l < LN, ∃ v < VN, ∃ s < TN, c = syllable l v s ∧ (c - S0) / (VN * TN) = l ∧ (c - S0) % (VN * TN) / TN = v ∧
      (c - S0) % TN = s := by
  refine ⟨(c - S0) / (VN * TN), ?_, (c - S0) % (VN * TN) / TN, ?_, (c - S0) % TN, ?_, ?_, rfl, rfl, rfl⟩ <;>
    simp only [Syllable, syllable, S0, LN, VN, TN] at * <;> omega

theorem syllable_split {l v s : ℕ} (hv : v < VN) (hs : s < TN) :
    (syllable l v s - S0) / (VN * TN) = l ∧ (syllable l v s - S0) % (VN * TN) / TN = v ∧ (syllable l v s - S0) % TN = s := by
  simp only [syllable, S0, VN, TN] at *
  omega

namespace Standard

variable (hU : Standard U)
include hU

theorem vowel {v : ℕ} (hv : v < VN) : U.parts (V0 + v) = [] := by
  have hzero : 0 < LN := by decide
  have hsyllable := syllable_lt hzero hv (by decide : 0 < TN)
  have hparts := hU.open_syllable 0 hzero v hv
  obtain ⟨a, b, hpair, -, -, -, hb⟩ := hU.lawful.pair _ ⟨by rw [hparts]; exact List.cons_ne_nil _ _, hU.free _ hsyllable⟩
  rw [hparts] at hpair
  cases hpair
  exact hb

theorem trailing {s : ℕ} (hs : s < TN) (hpos : 0 < s) : U.parts (T0 + s) = [] := by
  have hzero : 0 < LN := by decide
  have hzero' : 0 < VN := by decide
  have hsyllable := syllable_lt hzero hzero' hs
  have hparts := hU.closed_syllable 0 hzero 0 hzero' s hs hpos
  obtain ⟨a, b, hpair, -, -, -, hb⟩ := hU.lawful.pair _ ⟨by rw [hparts]; exact List.cons_ne_nil _ _, hU.free _ hsyllable⟩
  rw [hparts] at hpair
  cases hpair
  exact hb

theorem full_open {l v : ℕ} (hl : l < LN) (hv : v < VN) : U.full (syllable l v 0) = [L0 + l, V0 + v] := by
  rw [Script.full_of_pair (hU.open_syllable l hl v hv) (hU.vowel hv), Script.full_of_whole (hU.consonant l hl)]
  rfl

theorem full_closed {l v s : ℕ} (hl : l < LN) (hv : v < VN) (hs : s < TN) (hpos : 0 < s) :
    U.full (syllable l v s) = [L0 + l, V0 + v, T0 + s] := by
  rw [Script.full_of_pair (hU.closed_syllable l hl v hv s hs hpos) (hU.trailing hs hpos), hU.full_open hl hv]
  rfl

theorem pairs_open {l v : ℕ} (hl : l < LN) (hv : v < VN) : U.Pairs (L0 + l) (V0 + v) (syllable l v 0) := by
  have hparts := hU.open_syllable l hl v hv
  exact ⟨⟨by rw [hparts]; exact List.cons_ne_nil _ _, hU.free _ (syllable_lt hl hv (by decide))⟩, hparts⟩

theorem pairs_closed {l v s : ℕ} (hl : l < LN) (hv : v < VN) (hs : s < TN) (hpos : 0 < s) :
    U.Pairs (syllable l v 0) (T0 + s) (syllable l v s) := by
  have hparts := hU.closed_syllable l hl v hv s hs hpos
  exact ⟨⟨by rw [hparts]; exact List.cons_ne_nil _ _, hU.free _ (syllable_lt hl hv hs)⟩, hparts⟩

theorem eq_of_pairs {a b p q : ℕ} (hp : U.Pairs a b p) (hq : U.Pairs a b q) : p = q :=
  hU.lawful.single p q hp.1 hq.1 (hp.2.trans hq.2.symm)

/-- The two that make up a syllable. -/
theorem pairs_syllable {a b p : ℕ} (h : U.Pairs a b p) (hp : Syllable p) :
    (∃ l < LN, ∃ v < VN, a = L0 + l ∧ b = V0 + v) ∨
      ∃ l < LN, ∃ v < VN, ∃ s < TN, 0 < s ∧ a = syllable l v 0 ∧ b = T0 + s := by
  obtain ⟨l, hl, v, hv, s, hs, rfl, -⟩ := exists_syllable hp
  by_cases hpos : s = 0
  · subst hpos
    have hparts := h.2
    rw [hU.open_syllable l hl v hv] at hparts
    cases hparts
    exact .inl ⟨l, hl, v, hv, rfl, rfl⟩
  · have hparts := h.2
    rw [hU.closed_syllable l hl v hv s hs (by omega)] at hparts
    cases hparts
    exact .inr ⟨l, hl, v, hv, s, hs, by omega, rfl, rfl⟩

end Standard

/-! ## Hangul and one accented letter -/

/-- What a syllable is made of. -/
def syllableParts (c : ℕ) : List ℕ :=
  let s := c - S0
  if s % TN = 0 then [L0 + s / (VN * TN), V0 + s % (VN * TN) / TN] else [c - s % TN, T0 + s % TN]

def acuteParts (c : ℕ) : List ℕ :=
  if Syllable c then syllableParts c else if c = 0xE9 then [0x65, 0x301] else []

/-- How often a character is taken apart. -/
def acuteRank (c : ℕ) : ℕ :=
  if Syllable c then (if (c - S0) % TN = 0 then 1 else 2) else if c = 0xE9 then 1 else 0

theorem acuteParts_syllable {l v s : ℕ} (hl : l < LN) (hv : v < VN) (hs : s < TN) :
    acuteParts (syllable l v s) = if s = 0 then [L0 + l, V0 + v] else [syllable l v 0, T0 + s] := by
  obtain ⟨hlead, hvowel, htrail⟩ := syllable_split (l := l) hv hs
  have hless : syllable l v s - s = syllable l v 0 := by
    rw [syllable, syllable]
    omega
  rw [acuteParts, if_pos (syllable_lt hl hv hs), syllableParts]
  simp only [hlead, hvowel, htrail, hless]

theorem acuteRank_syllable {l v s : ℕ} (hl : l < LN) (hv : v < VN) (hs : s < TN) :
    acuteRank (syllable l v s) = if s = 0 then 1 else 2 := by
  obtain ⟨-, -, htrail⟩ := syllable_split (l := l) hv hs
  rw [acuteRank, if_pos (syllable_lt hl hv hs), htrail]

/-- Consonants and vowels are neither syllables nor the letter. -/
theorem jamo {c : ℕ} (h : 0x301 ≤ c) (h' : c < S0) : acuteParts c = [] ∧ acuteRank c = 0 := by
  have hsyllable : ¬Syllable c := fun hc => absurd hc.1 (by omega)
  rw [acuteParts, acuteRank, if_neg hsyllable, if_neg hsyllable, if_neg (by omega), if_neg (by omega)]
  exact ⟨rfl, rfl⟩

theorem acuteRank_lt {a c : ℕ} (h : a ∈ acuteParts c) : acuteRank a < acuteRank c := by
  by_cases hc : Syllable c
  · obtain ⟨l, hl, v, hv, s, hs, rfl, -⟩ := exists_syllable hc
    rw [acuteParts_syllable hl hv hs] at h
    rw [acuteRank_syllable hl hv hs]
    have hlead := (jamo (c := L0 + l) (by simp only [L0]; omega) (by simp only [L0, S0, LN] at *; omega)).2
    have hvowel := (jamo (c := V0 + v) (by simp only [V0]; omega) (by simp only [V0, S0, VN] at *; omega)).2
    have htrail := (jamo (c := T0 + s) (by simp only [T0]; omega) (by simp only [T0, S0, TN] at *; omega)).2
    have hopen := acuteRank_syllable hl hv (show 0 < TN by decide)
    split_ifs at h ⊢ with hzero <;> simp only [List.mem_cons, List.not_mem_nil, or_false] at h
    · obtain rfl | rfl := h <;> omega
    · obtain rfl | rfl := h
      · rw [hopen]
        decide
      · omega
  · rw [acuteParts, if_neg hc] at h
    split_ifs at h with he
    · rw [he]
      simp only [List.mem_cons, List.not_mem_nil, or_false] at h
      obtain rfl | rfl := h <;> decide
    · cases h

/-- Hangul, and one letter with an acute accent. -/
def acute : Script ℕ where
  cc c := if c = 0x301 then 230 else 0
  parts := acuteParts
  excluded _ := False
  acyclic := Subrelation.wf acuteRank_lt (InvImage.wf acuteRank Nat.lt_wfRel.wf)

theorem acute_cases {c : ℕ} (h : acute.parts c ≠ []) :
    (∃ l < LN, ∃ v < VN, c = syllable l v 0 ∧ acute.parts c = [L0 + l, V0 + v]) ∨
      (∃ l < LN, ∃ v < VN, ∃ s < TN, 0 < s ∧ c = syllable l v s ∧ acute.parts c = [syllable l v 0, T0 + s]) ∨
      c = 0xE9 ∧ acute.parts c = [0x65, 0x301] := by
  by_cases hc : Syllable c
  · obtain ⟨l, hl, v, hv, s, hs, rfl, -⟩ := exists_syllable hc
    have hparts := acuteParts_syllable hl hv hs
    by_cases hzero : s = 0
    · subst hzero
      exact .inl ⟨l, hl, v, hv, rfl, hparts⟩
    · rw [if_neg hzero] at hparts
      exact .inr (.inl ⟨l, hl, v, hv, s, hs, by omega, rfl, hparts⟩)
  · have hparts : acute.parts c = if c = 0xE9 then [0x65, 0x301] else [] := if_neg hc
    by_cases he : c = 0xE9
    · rw [if_pos he] at hparts
      exact .inr (.inr ⟨he, hparts⟩)
    · rw [if_neg he] at hparts
      exact absurd hparts h

theorem acute_whole {c : ℕ} (h : 0x301 ≤ c) (h' : c < S0) : acute.parts c = [] := (jamo h h').1

theorem acute_lead {l : ℕ} (hl : l < LN) : acute.parts (L0 + l) = [] :=
  acute_whole (by simp only [L0]; omega) (by simp only [L0, S0, LN] at *; omega)

theorem acute_vowel {v : ℕ} (hv : v < VN) : acute.parts (V0 + v) = [] :=
  acute_whole (by simp only [V0]; omega) (by simp only [V0, S0, VN] at *; omega)

theorem acute_trail {s : ℕ} (hs : s < TN) : acute.parts (T0 + s) = [] :=
  acute_whole (by simp only [T0]; omega) (by simp only [T0, S0, TN] at *; omega)

theorem acute_open {l v : ℕ} (hl : l < LN) (hv : v < VN) : acute.parts (syllable l v 0) = [L0 + l, V0 + v] :=
  acuteParts_syllable hl hv (by decide)

theorem acute_cc {c : ℕ} (h : 0x302 ≤ c) : acute.cc c = 0 := if_neg (by omega)

theorem acute_cc_syllable (l v s : ℕ) : acute.cc (syllable l v s) = 0 :=
  acute_cc (by simp only [syllable, S0]; omega)

theorem ordered_of_starters {l : List ℕ} (h : ∀ a ∈ l, 0x302 ≤ a) : Ordered acute.cc l := by
  induction l with
  | nil => exact List.isChain_nil
  | cons a l ih =>
    refine List.isChain_cons.mpr ⟨?_, ih fun b hb => h b (List.mem_cons_of_mem a hb)⟩
    intro b hb hwrong
    have hzero := acute_cc (h b (List.mem_cons_of_mem a (List.mem_of_mem_head? hb)))
    exact absurd hwrong.2 (by omega)

theorem acute_lawful : acute.Lawful where
  ordered c := by
    by_cases h : acute.parts c = []
    · rw [Script.full_of_whole h]
      exact List.isChain_singleton c
    · have hlow (n : ℕ) : 0x302 ≤ L0 + n ∧ 0x302 ≤ V0 + n ∧ 0x302 ≤ T0 + n := by
        simp only [L0, V0, T0]
        omega
      obtain ⟨l, hl, v, hv, rfl, hparts⟩ | ⟨l, hl, v, hv, s, hs, -, rfl, hparts⟩ | ⟨rfl, hparts⟩ := acute_cases h
      · rw [Script.full_of_pair hparts (acute_vowel hv), Script.full_of_whole (acute_lead hl)]
        exact ordered_of_starters (by simp [hlow])
      · rw [Script.full_of_pair hparts (acute_trail hs), Script.full_of_pair (acute_open hl hv) (acute_vowel hv),
          Script.full_of_whole (acute_lead hl)]
        exact ordered_of_starters (by simp [hlow])
      · rw [Script.full_of_pair hparts (acute_whole le_rfl (by decide)), Script.full_of_whole (by rfl)]
        exact List.isChain_pair.mpr fun hwrong => absurd hwrong.1 (by decide)
  pair p hp := by
    obtain ⟨l, hl, v, hv, rfl, hparts⟩ | ⟨l, hl, v, hv, s, hs, -, rfl, hparts⟩ | ⟨rfl, hparts⟩ := acute_cases hp.1
    · exact ⟨_, _, hparts, acute_cc (by simp only [L0]; omega), acute_cc_syllable l v 0, .inl (acute_lead hl),
        acute_vowel hv⟩
    · have hstays : acute.Stays (syllable l v 0) := .inr ⟨by rw [acute_open hl hv]; exact List.cons_ne_nil _ _, id⟩
      exact ⟨_, _, hparts, acute_cc_syllable l v 0, acute_cc_syllable l v s, hstays, acute_trail hs⟩
    · exact ⟨_, _, hparts, rfl, rfl, .inl (by rfl), acute_whole le_rfl (by decide)⟩
  single p q hp hq h := by
    obtain ⟨l, hl, v, hv, rfl, hparts⟩ | ⟨l, hl, v, hv, s, hs, -, rfl, hparts⟩ | ⟨rfl, hparts⟩ := acute_cases hp.1 <;>
    obtain ⟨l', hl', v', hv', rfl, hparts'⟩ | ⟨l', hl', v', hv', s', hs', -, rfl, hparts'⟩ | ⟨rfl, hparts'⟩ :=
      acute_cases hq.1 <;>
    have heq := hparts.symm.trans (h.trans hparts') <;>
    simp only [List.cons.injEq, and_true, syllable, S0, L0, V0, T0, LN, VN, TN] at * <;> omega

theorem acute_standard : Standard acute where
  lawful := acute_lawful
  open_syllable l hl v hv := acute_open hl hv
  closed_syllable l hl v hv s hs hpos := by
    have hparts := acuteParts_syllable hl hv hs
    rw [if_neg (by omega)] at hparts
    exact hparts
  consonant l hl := acute_lead hl
  free _ _ := id
  scalar c h := by
    obtain ⟨l, hl, v, hv, rfl, hparts⟩ | ⟨l, hl, v, hv, s, hs, -, rfl, hparts⟩ | ⟨rfl, hparts⟩ := acute_cases h <;>
    rw [hparts] <;>
    simp only [List.mem_cons, List.not_mem_nil, or_false, forall_eq_or_imp, forall_eq, Nat.isValidChar, syllable, S0, L0,
      V0, T0, LN, VN, TN] at * <;> omega
  low c hc := by
    refine ⟨if_neg (by omega), ?_, ?_⟩
    · rintro l p ⟨hp, hparts⟩
      obtain ⟨l', hl, v, hv, rfl, hparts'⟩ | ⟨l', hl, v, hv, s, hs, -, rfl, hparts'⟩ | ⟨rfl, hparts'⟩ := acute_cases hp.1 <;>
      rw [hparts'] at hparts <;>
      simp only [List.cons.injEq, and_true, V0, T0] at hparts <;> omega
    · by_cases h : acute.parts c = []
      · exact .inl h
      · obtain ⟨l, hl, v, hv, rfl, -⟩ | ⟨l, hl, v, hv, s, hs, -, rfl, -⟩ | ⟨rfl, hparts⟩ := acute_cases h
        · simp only [syllable, S0] at hc
          omega
        · simp only [syllable, S0] at hc
          omega
        · exact .inr ⟨0x65, 0x301, ⟨⟨h, id⟩, hparts⟩, by decide⟩

end Chatlink.Token.Nfc
