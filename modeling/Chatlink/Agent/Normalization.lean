import Chatlink.Text.Forms
import Chatlink.Text.Spacing
import Chatlink.Agent.Lexicon

/-!
# One normal text for each wording

`normalize_text` is the key of the aliases and the first step of every comparison of names, so two
spellings of one text should have one normal text, no `ñ` should be lost, and a normal text should
be its own. The `ñ` is kept by setting its code point aside while the text is decomposed: the
number of `ñ` of the result is that of the letters set aside and of the control characters that
stand for them.
-/
namespace Chatlink.Agent

variable {U : Unicode}

/-! ## The letters that are set aside -/

def aparta (c : Char) : Char := if c = 'ñ' then '\x00' else if c = 'Ñ' then '\x01' else c

def repone (c : Char) : Char := if c = '\x00' then 'ñ' else if c = '\x01' then 'Ñ' else c

theorem stripAccents_eq (s : Texto) :
    stripAccents U s = ((U.nfd (s.map aparta)).filter fun c => !U.mark c).map repone := rfl

/-- Everything after the accents: signs become spaces, and spaces are collapsed. -/
def sinSignos (U : Unicode) (s : Texto) : Texto :=
  Texto.strip (Texto.collapse (Texto.collapseBy (fun c => !U.word c) false
    (s.map fun c => if c ∈ ['/', '\\', '_', '-'] then ' ' else c)))

theorem normalizeText_eq (s : Texto) :
    normalizeText U s = sinSignos U (stripAccents U (U.lower s)) := rfl

/-- Two letters that become one are counted together. -/
theorem count_map_of_iff {f : Char → Char} {a b c : Char} (hab : a ≠ b)
    (hf : ∀ d, f d = c ↔ d = a ∨ d = b) (s : Texto) :
    (s.map f).count c = s.count a + s.count b := by
  induction s with
  | nil => rfl
  | cons d s ih =>
    rw [List.map_cons, List.count_cons, List.count_cons, List.count_cons, ih]
    by_cases ha : d = a
    · subst ha
      simp [hf, hab]
      omega
    · by_cases hb : d = b
      · subst hb
        simp [hf, ha]
        omega
      · simp [hf, ha, hb]

theorem aparta_iff (d : Char) :
    (aparta d = '\x00' ↔ d = 'ñ' ∨ d = '\x00') ∧ (aparta d = '\x01' ↔ d = 'Ñ' ∨ d = '\x01') := by
  unfold aparta
  split
  · next h => simp [h]
  · split
    · next h => simp [h]
    · next h1 h2 => simp [h1, h2]

theorem repone_iff (d : Char) :
    (repone d = 'ñ' ↔ d = 'ñ' ∨ d = '\x00') ∧ (repone d = 'Ñ' ↔ d = 'Ñ' ∨ d = '\x01') := by
  unfold repone
  split
  · next h => simp [h]
  · split
    · next h => simp [h]
    · next h1 h2 => simp [h1, h2]

theorem stripAccents_of_notMem {s : Texto} (h : 'ñ' ∉ s) (h' : 'Ñ' ∉ s) :
    stripAccents U s = ((U.nfd s).filter fun c => !U.mark c).map repone := by
  have hmap : s.map aparta = s.map id := by
    refine List.map_congr_left fun c hc => ?_
    have h1 : c ≠ 'ñ' := fun heq => h (heq ▸ hc)
    have h2 : c ≠ 'Ñ' := fun heq => h' (heq ▸ hc)
    simp [aparta, h1, h2]
  rw [stripAccents_eq, hmap, List.map_id]

theorem of_mem_sinSignos {s : Texto} {c : Char} (h : c ∈ sinSignos U s) :
    c = ' ' ∨ (c ∈ s ∧ U.word c ∧ c ∉ ['/', '\\', '_', '-']) := by
  rcases Texto.mem_of_mem_collapseBy (Texto.mem_of_mem_stripBy h) with rfl | ⟨h, -⟩
  · exact Or.inl rfl
  · rcases Texto.mem_of_mem_collapseBy h with rfl | ⟨h, hw⟩
    · exact Or.inl rfl
    · obtain ⟨d, hd, rfl⟩ := List.mem_map.mp h
      split at hw
      · next hsep => exact Or.inl (if_pos hsep)
      · next hsep =>
        rw [if_neg hsep]
        exact Or.inr ⟨hd, by simpa using hw, hsep⟩

namespace Formas

variable (F : FormasNormales U)
include F

theorem count_filter_mark {c : Char} (hc : c.toNat < 128) (s : Texto) :
    (s.filter fun c => !U.mark c).count c = s.count c :=
  List.count_filter (by simp [F.mark_ascii c hc])

theorem notMem_filter_nfd (s : Texto) :
    ((U.nfd s).filter fun c => !U.mark c).count 'ñ' = 0 ∧
      ((U.nfd s).filter fun c => !U.mark c).count 'Ñ' = 0 := by
  constructor
  · exact List.count_eq_zero.mpr fun h => (F.notMem_nfd s).1 (List.mem_of_mem_filter h)
  · exact List.count_eq_zero.mpr fun h => (F.notMem_nfd s).2 (List.mem_of_mem_filter h)

theorem count_stripAccents (s : Texto) :
    (stripAccents U s).count 'ñ' = s.count 'ñ' + s.count '\x00' ∧
      (stripAccents U s).count 'Ñ' = s.count 'Ñ' + s.count '\x01' := by
  rw [stripAccents_eq]
  constructor
  · rw [count_map_of_iff (by decide) fun d => (repone_iff d).1, (notMem_filter_nfd F _).1,
      count_filter_mark F (by decide), F.count_nfd_control _ (by decide),
      count_map_of_iff (by decide) fun d => (aparta_iff d).1, Nat.zero_add]
  · rw [count_map_of_iff (by decide) fun d => (repone_iff d).2, (notMem_filter_nfd F _).2,
      count_filter_mark F (by decide), F.count_nfd_control _ (by decide),
      count_map_of_iff (by decide) fun d => (aparta_iff d).2, Nat.zero_add]

/-- The letters of words are kept, each as often as it stands in the text. -/
theorem count_sinSignos {c : Char} (hw : U.word c) (hsep : c ∉ ['/', '\\', '_', '-', ' '])
    (s : Texto) : (sinSignos U s).count c = s.count c := by
  have hspace : Texto.isSpace c = false := by
    by_contra h
    simp [F.word_space c (by simpa using h)] at hw
  have hne : ' ' ≠ c := fun h => hsep (by simp [← h])
  unfold sinSignos Texto.strip Texto.collapse
  rw [Texto.count_stripBy hspace, Texto.count_collapseBy hspace hne,
    Texto.count_collapseBy (by simp [hw]) hne]
  induction s with
  | nil => rfl
  | cons d s ih =>
    rw [List.map_cons, List.count_cons, List.count_cons, ih]
    by_cases hd : d ∈ ['/', '\\', '_', '-']
    · have hdc : d ≠ c := by
        rintro rfl
        simp only [List.mem_cons] at hd hsep
        tauto
      simp [hd, hdc, hne]
    · rw [if_neg hd]

/-- How many `ñ` a normal text has. -/
theorem count_normalizeText (s : Texto) :
    (normalizeText U s).count 'ñ' = s.count 'ñ' + s.count 'Ñ' + s.count '\x00' ∧
      (normalizeText U s).count 'Ñ' = s.count '\x01' := by
  rw [normalizeText_eq]
  constructor
  · rw [count_sinSignos F F.word_enie.1 (by decide), (count_stripAccents F _).1, F.count_lower,
      F.count_lower_control _ (by decide)]
  · rw [count_sinSignos F F.word_enie.2 (by decide), (count_stripAccents F _).2,
      List.count_eq_zero.mpr (F.notMem_lower s), F.count_lower_control _ (by decide), Nat.zero_add]

/-! ## The two forms -/

/-- Without a composed `ñ` nothing is set aside, and the forms are decomposed alike. -/
theorem normalizeText_nfc {s : Texto} (h : 'ñ' ∉ F.nfc s) (h' : 'Ñ' ∉ F.nfc s) :
    normalizeText U (F.nfc s) = normalizeText U (U.nfd s) := by
  have hlower : ∀ t : Texto, 'ñ' ∉ t → 'Ñ' ∉ t → 'ñ' ∉ U.lower t := by
    intro t ht ht'
    rw [← List.count_eq_zero, F.count_lower, List.count_eq_zero.mpr ht, List.count_eq_zero.mpr ht']
  have hd := F.notMem_nfd s
  rw [normalizeText_eq, normalizeText_eq,
    stripAccents_of_notMem (hlower _ h h') (F.notMem_lower _),
    stripAccents_of_notMem (hlower _ hd.1 hd.2) (F.notMem_lower _), F.nfd_lower_nfc]

/-- Two texts of one normal text have the same tokens. -/
theorem tokenize_congr {s t : Texto} (h : normalizeText U s = normalizeText U t) :
    tokenize U s = tokenize U t := by
  have hnil : normalizeText U [] = [] := by
    rw [normalizeText_eq, U.lower_nil, stripAccents_eq, List.map_nil, F.nfd_nil]
    rfl
  have key : ∀ s : Texto, tokenize U s = (Texto.splitChar ' ' [] (normalizeText U s)).filterMap
      fun t =>
        if !(3 ≤ t.length && t.length ≤ 40) || spanishStopwords.contains t then none
        else
          let t := singularize t
          if spanishStopwords.contains t then none else some t := by
    intro s
    cases s with
    | nil =>
      rw [hnil]
      rfl
    | cons c s => rfl
  rw [key, key, h]

/-! ## A normal text is its own -/

theorem lower_enie : U.lower ['ñ'] = ['ñ'] := by
  have hcount : (U.lower ['ñ']).count 'ñ' = 1 := by rw [F.count_lower]; rfl
  refine F.lower_of_mem ['ñ'] 'ñ' (List.count_pos_iff.mp ?_)
  omega

/-- What is set aside is in lower case when the text is. -/
theorem lower_aparta {s : Texto} : ∀ c ∈ (U.lower s).map aparta, U.lower [c] = [c] := by
  intro c hc
  obtain ⟨d, hd, rfl⟩ := List.mem_map.mp hc
  unfold aparta
  split
  · exact F.lower_ascii _ (by decide)
  · split
    · exact F.lower_ascii _ (by decide)
    · exact F.lower_of_mem s d hd

/-- The letters of a text without accents. -/
theorem of_mem_stripAccents {s : Texto} {c : Char} (h : c ∈ stripAccents U (U.lower s)) :
    c = 'ñ' ∨ c = 'Ñ' ∨ (U.lower [c] = [c] ∧ U.nfd [c] = [c]) := by
  rw [stripAccents_eq] at h
  obtain ⟨d, hd, rfl⟩ := List.mem_map.mp h
  have hd := List.mem_of_mem_filter hd
  unfold repone
  split
  · exact Or.inl rfl
  · split
    · exact Or.inr (Or.inl rfl)
    · exact Or.inr (Or.inr ⟨F.lower_nfd _ (lower_aparta F) d hd, F.nfd_of_mem _ d hd⟩)

theorem espaciado_sinSignos (s : Texto) :
    Texto.Espaciado (fun c => !U.word c) (sinSignos U s) ∧
      Texto.strip (sinSignos U s) = sinSignos U s := by
  refine ⟨?_, Texto.stripBy_stripBy _⟩
  have hcol := (Texto.espaciado_collapseBy (p := fun c => !U.word c)
    (s.map fun c => if c ∈ ['/', '\\', '_', '-'] then ' ' else c) false).1
  have hspace : ∀ c, Texto.isSpace c → (!U.word c) = true := fun c hc => by
    simp [F.word_space c hc]
  unfold sinSignos Texto.collapse
  rw [Texto.collapseBy_eq_self (hcol.mono hspace) false (by simp)]
  exact hcol.of_isInfix (Texto.stripBy_isInfix _)

/-- Words with single spaces between them have no signs to take. -/
theorem sinSignos_eq_self {s : Texto} (h : Texto.Espaciado (fun c => !U.word c) s)
    (hstrip : Texto.strip s = s) (hsep : ∀ c ∈ s, c ∉ ['/', '\\', '_', '-']) :
    sinSignos U s = s := by
  have hmap : s.map (fun c => if c ∈ ['/', '\\', '_', '-'] then ' ' else c) = s.map id :=
    List.map_congr_left fun c hc => if_neg (hsep c hc)
  have hspace : ∀ c, Texto.isSpace c → (!U.word c) = true := fun c hc => by
    simp [F.word_space c hc]
  unfold sinSignos Texto.collapse
  rw [hmap, List.map_id, Texto.collapseBy_eq_self h false (by simp),
    Texto.collapseBy_eq_self (h.mono hspace) false (by simp), hstrip]

/-- Letters that have no accents are set aside and brought back. -/
theorem stripAccents_eq_self {s : Texto} (hs : ∀ c ∈ s, U.word c ∨ c = ' ')
    (hnfd : ∀ c ∈ s, c = 'ñ' ∨ c = 'Ñ' ∨ U.nfd [c] = [c]) : stripAccents U s = s := by
  have hlet : ∀ c ∈ s.map aparta, (U.word c ∨ c.toNat < 128) ∧ U.nfd [c] = [c] := by
    intro c hc
    obtain ⟨d, hd, rfl⟩ := List.mem_map.mp hc
    unfold aparta
    split
    · exact ⟨Or.inr (by decide), F.nfd_ascii _ (by decide)⟩
    · next h1 =>
      split
      · exact ⟨Or.inr (by decide), F.nfd_ascii _ (by decide)⟩
      · next h2 =>
        refine ⟨?_, by simpa [h1, h2] using hnfd d hd⟩
        rcases hs d hd with hw | rfl
        · exact Or.inl hw
        · exact Or.inr (by decide)
  have hmark : ∀ c ∈ s.map aparta, (!U.mark c) = true := by
    intro c hc
    rcases (hlet c hc).1 with hw | hw
    · simp [F.mark_word c hw]
    · simp [F.mark_ascii c hw]
  have hback : (s.map aparta).map repone = s.map id := by
    rw [List.map_map]
    refine List.map_congr_left fun c hc => ?_
    have h32 : ¬ c.toNat < 32 := by
      intro hlt
      rcases hs c hc with hw | rfl
      · simp [F.word_control c hlt] at hw
      · exact absurd hlt (by decide)
    have h0 : c ≠ '\x00' := fun heq => h32 (heq ▸ by decide)
    have h1 : c ≠ '\x01' := fun heq => h32 (heq ▸ by decide)
    unfold Function.comp aparta
    split
    · next h => simp [h, repone]
    · split
      · next h => simp [h, repone]
      · simp [repone, h0, h1]
  rw [stripAccents_eq, F.nfd_eq_self _ hlet, List.filter_eq_self.mpr hmark, hback, List.map_id]

/-- Without the second control character no capital is left, and the normal text is its own. -/
theorem normalizeText_normalizeText {s : Texto} (h : '\x01' ∉ s) :
    normalizeText U (normalizeText U s) = normalizeText U s := by
  have hcap : 'Ñ' ∉ normalizeText U s := by
    rw [← List.count_eq_zero, (count_normalizeText F s).2, List.count_eq_zero.mpr h]
  have hmem : ∀ c ∈ normalizeText U s, (U.word c ∨ c = ' ') ∧ c ∉ ['/', '\\', '_', '-'] ∧
      U.lower [c] = [c] ∧ (c = 'ñ' ∨ c = 'Ñ' ∨ U.nfd [c] = [c]) := by
    intro c hc
    rcases of_mem_sinSignos hc with rfl | ⟨hs, hw, hsep⟩
    · exact ⟨Or.inr rfl, by decide, F.lower_ascii _ (by decide),
        Or.inr (Or.inr (F.nfd_ascii _ (by decide)))⟩
    · refine ⟨Or.inl hw, hsep, ?_⟩
      rcases of_mem_stripAccents F hs with rfl | rfl | ⟨hl, hd⟩
      · exact ⟨lower_enie F, Or.inl rfl⟩
      · exact absurd hc hcap
      · exact ⟨hl, Or.inr (Or.inr hd)⟩
  have hes := espaciado_sinSignos F (stripAccents U (U.lower s))
  rw [normalizeText_eq (normalizeText U s), F.lower_eq_self _ fun c hc => (hmem c hc).2.2.1,
    stripAccents_eq_self F (fun c hc => (hmem c hc).1) fun c hc => (hmem c hc).2.2.2]
  exact sinSignos_eq_self F hes.1 hes.2 fun c hc => (hmem c hc).2.1

end Formas

/-! ## The exact texts -/

/-- The composed and the decomposed form have one normal text and the same tokens, every `ñ` is
kept, and the normal text is its own. -/
structure BienNormal (F : FormasNormales U) (s : Texto) : Prop where
  formas : normalizeText U (F.nfc s) = normalizeText U (U.nfd s)
  tokens : tokenize U (F.nfc s) = tokenize U (U.nfd s)
  enies : s.count 'ñ' + s.count 'Ñ' ≤ (normalizeText U s).count 'ñ'
  eniesFormas : ∀ t ∈ [F.nfc s, U.nfd s],
    (F.nfc s).count 'ñ' + (F.nfc s).count 'Ñ' ≤ (normalizeText U t).count 'ñ'
  propio : normalizeText U (normalizeText U s) = normalizeText U s

/-- Exactly the texts without the letter `ñ` (in the composed form) and without the control
character that stands for its capital are normalized well. -/
theorem bienNormal_iff (F : FormasNormales U) (s : Texto) :
    BienNormal F s ↔ 'ñ' ∉ F.nfc s ∧ 'Ñ' ∉ F.nfc s ∧ '\x01' ∉ s := by
  constructor
  · intro h
    have hnfc := (Formas.count_normalizeText F (F.nfc s)).1
    have hnfd := (Formas.count_normalizeText F (U.nfd s)).1
    have hd := F.notMem_nfd s
    have hcontrol : (F.nfc s).count '\x00' = (U.nfd s).count '\x00' := by
      have h0 := F.count_nfd_control '\x00' (by decide)
      rw [← h0 (F.nfc s), F.nfd_nfc]
    rw [h.formas, hnfd, List.count_eq_zero.mpr hd.1, List.count_eq_zero.mpr hd.2, hcontrol] at hnfc
    refine ⟨List.count_eq_zero.mp (by omega), List.count_eq_zero.mp (by omega), ?_⟩
    -- the capital that the control character becomes is small in the next normal text
    have hcap := (Formas.count_normalizeText F (normalizeText U s)).2
    have hnone : '\x01' ∉ normalizeText U s := fun hmem => by
      rcases of_mem_sinSignos hmem with heq | ⟨-, hw, -⟩
      · exact absurd heq (by decide)
      · simp [F.word_control _ (by decide : Char.toNat '\x01' < 32)] at hw
    rw [h.propio, (Formas.count_normalizeText F s).2, List.count_eq_zero.mpr hnone] at hcap
    exact List.count_eq_zero.mp hcap
  · rintro ⟨hn, hN, hc⟩
    have hformas := Formas.normalizeText_nfc F hn hN
    refine ⟨hformas, Formas.tokenize_congr F hformas, ?_, fun t _ => ?_,
      Formas.normalizeText_normalizeText F hc⟩
    · have := (Formas.count_normalizeText F s).1
      omega
    · rw [List.count_eq_zero.mpr hn, List.count_eq_zero.mpr hN]
      exact Nat.zero_le _

/-- `uñas`, as the keyboard of a telephone may send it, is the article `unas`. -/
theorem unas_lose_tilde : ¬ BienNormal Unicode.formasLatinas "uñas".toList := by
  intro h
  have hne : normalizeText Unicode.latin (Unicode.formasLatinas.nfc "uñas".toList) ≠
      normalizeText Unicode.latin (Unicode.latin.nfd "uñas".toList) := by decide
  exact hne h.formas

end Chatlink.Agent
