import Chatlink.Text.Python

/-!
# Normal forms of a text

What the tables of the interpreter say of the composed form, of the decomposed one and of lower
case. The laws are those of the standard and of its tables: the decomposition of a text does not
depend on its form, lower case keeps the letter `ñ` and the control characters, and the characters
of a decomposition are decomposed.
-/
namespace Chatlink

/-- The composed form, and the laws that tie the forms to lower case and to the classes. -/
structure FormasNormales (U : Unicode) where
  nfc : Texto → Texto
  nfd_nfc : ∀ s, U.nfd (nfc s) = U.nfd s
  /-- Lower case respects canonical equivalence. -/
  nfd_lower_nfc : ∀ s, U.nfd (U.lower (nfc s)) = U.nfd (U.lower (U.nfd s))
  nfd_nil : U.nfd [] = []
  notMem_nfd : ∀ s, 'ñ' ∉ U.nfd s ∧ 'Ñ' ∉ U.nfd s
  count_lower : ∀ s, (U.lower s).count 'ñ' = s.count 'ñ' + s.count 'Ñ'
  notMem_lower : ∀ s, 'Ñ' ∉ U.lower s
  count_lower_control : ∀ c, c.toNat < 32 → ∀ s, (U.lower s).count c = s.count c
  count_nfd_control : ∀ c, c.toNat < 32 → ∀ s, (U.nfd s).count c = s.count c
  /-- Lower case is lower case letter by letter. -/
  lower_of_mem : ∀ s, ∀ c ∈ U.lower s, U.lower [c] = [c]
  lower_eq_self : ∀ s, (∀ c ∈ s, U.lower [c] = [c]) → U.lower s = s
  lower_nfd : ∀ s, (∀ c ∈ s, U.lower [c] = [c]) → ∀ c ∈ U.nfd s, U.lower [c] = [c]
  lower_ascii : ∀ c, c.toNat < 65 → U.lower [c] = [c]
  nfd_of_mem : ∀ s, ∀ c ∈ U.nfd s, U.nfd [c] = [c]
  nfd_ascii : ∀ c, c.toNat < 128 → U.nfd [c] = [c]
  /-- Letters that are decomposed already stay in their order: only marks are reordered. -/
  nfd_eq_self : ∀ s, (∀ c ∈ s, (U.word c ∨ c.toNat < 128) ∧ U.nfd [c] = [c]) → U.nfd s = s
  word_enie : U.word 'ñ' ∧ U.word 'Ñ'
  word_space : ∀ c, Texto.isSpace c → U.word c = false
  word_control : ∀ c, c.toNat < 32 → U.word c = false
  mark_word : ∀ c, U.word c → U.mark c = false
  mark_ascii : ∀ c, c.toNat < 128 → U.mark c = false

namespace Unicode

/-! ## The forms on the letters of Spanish -/

def acentuadas : Texto := "áéíóúüñÁÉÍÓÚÜÑ".toList

/-- Compose the pairs of base letter and mark. -/
def compose : Texto → Texto
  | a :: b :: s =>
    match acentuadas.find? fun c => decompose c = [a, b] with
    | some c => c :: compose s
    | none => a :: compose (b :: s)
  | s => s

/-- A property of the first block is checked character by character, row by row. -/
theorem of_toNat_lt {P : Char → Prop}
    (h : ∀ i < 16, ∀ j < 16, P (Char.ofNat (16 * i + j))) (c : Char)
    (hc : c.toNat < 256) : P c := by
  have hchar := h (c.toNat / 16) (by omega) (c.toNat % 16) (by omega)
  rwa [Nat.div_add_mod, Char.ofNat_toNat] at hchar

section Later

/-! Beyond the first block the tables are the identity. -/

variable {c : Char} (h : 256 ≤ c.toNat)
include h

theorem ne_of_toNat_le (d : Char) (hd : d.toNat < 256) : c ≠ d := by
  rintro rfl
  omega

theorem lowerChar_of_le : lowerChar c = c := by
  unfold lowerChar
  rw [if_neg]
  · split
    all_goals first
      | rfl
      | exact absurd h (by decide)
  · intro hz
    have : c.toNat ≤ 90 := hz.2
    omega

theorem upperChar_of_le : upperChar c = c := by
  unfold upperChar
  rw [if_neg]
  · split
    all_goals first
      | rfl
      | exact absurd h (by decide)
  · intro hz
    have : c.toNat ≤ 122 := hz.2
    omega

theorem decompose_of_le : decompose c = [c] := by
  unfold decompose
  split
  all_goals first
    | rfl
    | exact absurd h (by decide)

theorem letter_of_le : letter c = false := by
  unfold letter
  rw [lowerChar_of_le h, upperChar_of_le h]
  have : ¬ c ≤ 'z' := fun hz => by
    have : c.toNat ≤ 122 := hz
    omega
  simp [this]

theorem word_of_le : latin.word c = false := by
  have : ¬ c ≤ '9' := fun hz => by
    have : c.toNat ≤ 57 := hz
    omega
  have hne : c ≠ '_' := ne_of_toNat_le h _ (by decide)
  simp [latin, letter_of_le h, this, hne]

end Later

/-- A property of all characters: checked in the first block, and where the tables are the
identity. -/
theorem forall_char {P : Char → Prop} (h : ∀ i < 16, ∀ j < 16, P (Char.ofNat (16 * i + j)))
    (hlater : ∀ c, 256 ≤ c.toNat → P c) (c : Char) : P c := by
  rcases lt_or_ge c.toNat 256 with hc | hc
  · exact of_toNat_lt h c hc
  · exact hlater c hc

theorem decompose_lowerChar (c : Char) :
    decompose (lowerChar c) = (decompose c).flatMap fun d => decompose (lowerChar d) := by
  refine forall_char (P := fun c => decompose (lowerChar c) =
    (decompose c).flatMap fun d => decompose (lowerChar d)) (by decide) ?_ c
  intro c hc
  simp [decompose_of_le hc]

theorem decompose_of_mem (c : Char) : ∀ d ∈ decompose c, decompose d = [d] := by
  have hall : (decompose c).all fun d => decompose d = [d] := by
    refine forall_char (P := fun c => (decompose c).all fun d => decompose d = [d]) ?_ ?_ c
    · decide
    · intro c hc
      simp [decompose_of_le hc]
  simpa using hall

theorem nfd_compose (s : Texto) : (compose s).flatMap decompose = s.flatMap decompose := by
  fun_induction compose s with
  | case1 a b s c hfind ih =>
    have hc : decompose c = [a, b] := by simpa using List.find?_some hfind
    have ha : decompose a = [a] := decompose_of_mem c a (by simp [hc])
    have hb : decompose b = [b] := decompose_of_mem c b (by simp [hc])
    simp [ih, hc, ha, hb]
  | case2 a b s hfind ih => simpa using ih
  | case3 s => rfl

theorem decompose_ne (c : Char) : 'ñ' ∉ decompose c ∧ 'Ñ' ∉ decompose c := by
  refine forall_char (P := fun c => 'ñ' ∉ decompose c ∧ 'Ñ' ∉ decompose c) (by decide) ?_ c
  intro c hc
  rw [decompose_of_le hc, List.mem_singleton, List.mem_singleton]
  exact ⟨(ne_of_toNat_le hc _ (by decide)).symm, (ne_of_toNat_le hc _ (by decide)).symm⟩

theorem lowerChar_lowerChar (c : Char) : lowerChar (lowerChar c) = lowerChar c := by
  refine forall_char (P := fun c => lowerChar (lowerChar c) = lowerChar c) (by decide) ?_ c
  intro c hc
  rw [lowerChar_of_le hc, lowerChar_of_le hc]

/-- Only `Ñ` becomes `ñ`, and nothing becomes `Ñ`. -/
theorem lowerChar_enie (c : Char) :
    (lowerChar c = 'ñ' ↔ c = 'ñ' ∨ c = 'Ñ') ∧ lowerChar c ≠ 'Ñ' := by
  refine forall_char (P := fun c => (lowerChar c = 'ñ' ↔ c = 'ñ' ∨ c = 'Ñ') ∧ lowerChar c ≠ 'Ñ')
    (by decide) ?_ c
  intro c hc
  have h1 : c ≠ 'ñ' := ne_of_toNat_le hc _ (by decide)
  have h2 : c ≠ 'Ñ' := ne_of_toNat_le hc _ (by decide)
  simp [lowerChar_of_le hc, h1, h2]

/-- The tables leave a control character alone and make no other one. -/
theorem lowerChar_control (c d : Char) (hd : d.toNat < 32) : lowerChar c = d ↔ c = d := by
  have key : (lowerChar c).toNat < 32 ∨ c.toNat < 32 → lowerChar c = c := by
    refine forall_char (P := fun c => (lowerChar c).toNat < 32 ∨ c.toNat < 32 → lowerChar c = c)
      (by decide) ?_ c
    intro c hc _
    exact lowerChar_of_le hc
  constructor
  · rintro rfl
    exact (key (Or.inl hd)).symm
  · rintro rfl
    exact key (Or.inr hd)

theorem count_decompose (c d : Char) (hd : d.toNat < 32) :
    (decompose c).count d = [c].count d := by
  have key : decompose c = [c] ∨ (¬ c.toNat < 32 ∧ (decompose c).all fun e => ¬ e.toNat < 32) := by
    refine forall_char (P := fun c => decompose c = [c] ∨
      (¬ c.toNat < 32 ∧ (decompose c).all fun e => ¬ e.toNat < 32)) (by decide) ?_ c
    intro c hc
    exact Or.inl (decompose_of_le hc)
  rcases key with h | ⟨h, hall⟩
  · rw [h]
  · have hne : d ∉ decompose c := fun hmem => by
      have := List.all_eq_true.mp hall d hmem
      simp [hd] at this
    have hne' : d ∉ [c] := fun hmem => by
      obtain rfl := List.mem_singleton.mp hmem
      exact h hd
    rw [List.count_eq_zero.mpr hne, List.count_eq_zero.mpr hne']

theorem lowerChar_ascii (c : Char) (h : c.toNat < 65) : lowerChar c = c := by
  revert h
  refine forall_char (P := fun c => c.toNat < 65 → lowerChar c = c) (by decide) ?_ c
  intro c hc _
  exact lowerChar_of_le hc

theorem decompose_ascii (c : Char) (h : c.toNat < 128) : decompose c = [c] := by
  revert h
  refine forall_char (P := fun c => c.toNat < 128 → decompose c = [c]) (by decide) ?_ c
  intro c hc _
  exact decompose_of_le hc

/-- The decomposition of a small letter is made of small letters. -/
theorem lowerChar_decompose (c : Char) (h : lowerChar c = c) :
    ∀ d ∈ decompose c, lowerChar d = d := by
  have hall : lowerChar c = c → (decompose c).all fun d => lowerChar d = d := by
    refine forall_char
      (P := fun c => lowerChar c = c → (decompose c).all fun d => lowerChar d = d) ?_ ?_ c
    · decide
    · intro c hc _
      simp [decompose_of_le hc, lowerChar_of_le hc]
  simpa using hall h

theorem word_classes (c : Char) :
    latin.word c → Texto.isSpace c = false ∧ ¬ c.toNat < 32 ∧ latin.mark c = false := by
  refine forall_char (P := fun c => latin.word c →
    Texto.isSpace c = false ∧ ¬ c.toNat < 32 ∧ latin.mark c = false) ?_ ?_ c
  · decide
  · intro c hc h
    rw [word_of_le hc] at h
    cases h

theorem nfd_lower_nfd (s : Texto) :
    ((s.flatMap decompose).map lowerChar).flatMap decompose =
      (s.map lowerChar).flatMap decompose := by
  induction s with
  | nil => rfl
  | cons c s ih =>
    simp [ih, decompose_lowerChar c, List.flatMap_map]

/-- The laws hold of the tables of Spanish. -/
def formasLatinas : FormasNormales latin where
  nfc := compose
  nfd_nfc := nfd_compose
  nfd_lower_nfc s := by
    change ((compose s).map lowerChar).flatMap decompose =
      ((s.flatMap decompose).map lowerChar).flatMap decompose
    rw [← nfd_lower_nfd, nfd_compose]
  nfd_nil := rfl
  notMem_nfd s := by
    constructor
    · intro h
      obtain ⟨c, -, hc⟩ := List.mem_flatMap.mp h
      exact (decompose_ne c).1 hc
    · intro h
      obtain ⟨c, -, hc⟩ := List.mem_flatMap.mp h
      exact (decompose_ne c).2 hc
  count_lower s := by
    change (s.map lowerChar).count 'ñ' = s.count 'ñ' + s.count 'Ñ'
    induction s with
    | nil => rfl
    | cons c s ih =>
      have hc := (lowerChar_enie c).1
      by_cases h1 : c = 'ñ'
      · subst h1
        simp [ih, show lowerChar 'ñ' = 'ñ' from rfl]
        omega
      · by_cases h2 : c = 'Ñ'
        · subst h2
          simp [ih, show lowerChar 'Ñ' = 'ñ' from rfl]
          omega
        · simp [ih, hc, h1, h2]
  notMem_lower s h := by
    obtain ⟨c, -, hc⟩ := List.mem_map.mp h
    exact (lowerChar_enie c).2 hc
  count_lower_control d hd s := by
    change (s.map lowerChar).count d = s.count d
    induction s with
    | nil => rfl
    | cons c s ih => simp [List.count_cons, ih, lowerChar_control c d hd]
  count_nfd_control d hd s := by
    change (s.flatMap decompose).count d = s.count d
    induction s with
    | nil => rfl
    | cons c s ih =>
      rw [List.flatMap_cons, List.count_append, ih, count_decompose c d hd, ← List.count_append]
      rfl
  lower_of_mem s c h := by
    obtain ⟨d, -, rfl⟩ := List.mem_map.mp h
    exact congrArg (fun c => [c]) (lowerChar_lowerChar d)
  lower_eq_self s h := by
    have hmap : s.map lowerChar = s.map id :=
      List.map_congr_left fun c hc => List.head_eq_of_cons_eq (h c hc)
    simpa [latin] using hmap
  lower_nfd s h c hc := by
    obtain ⟨d, hd, hc⟩ := List.mem_flatMap.mp hc
    have hlow : lowerChar d = d := List.head_eq_of_cons_eq (h d hd)
    exact congrArg (fun c => [c]) (lowerChar_decompose d hlow c hc)
  lower_ascii c h := congrArg (fun c => [c]) (lowerChar_ascii c h)
  nfd_of_mem s c hc := by
    obtain ⟨d, -, hc⟩ := List.mem_flatMap.mp hc
    simpa [latin] using decompose_of_mem d c hc
  nfd_ascii c h := by simpa [latin] using decompose_ascii c h
  nfd_eq_self s h := by
    induction s with
    | nil => rfl
    | cons c s ih =>
      have hc : decompose c = [c] := by simpa [latin] using (h c (by simp)).2
      have hs : s.flatMap decompose = s := ih fun d hd => h d (List.mem_cons_of_mem c hd)
      change (c :: s).flatMap decompose = c :: s
      rw [List.flatMap_cons, hc, hs]
      rfl
  word_enie := by decide
  word_space c h := by
    by_contra hw
    simp [(word_classes c (by simpa using hw)).1] at h
  word_control c h := by
    by_contra hw
    exact (word_classes c (by simpa using hw)).2.1 h
  mark_word c h := (word_classes c h).2.2
  mark_ascii c h := by
    have : ¬ '\u0300' ≤ c := fun hc => by
      have : 0x300 ≤ c.toNat := hc
      omega
    simp [latin, this]

end Unicode
end Chatlink
