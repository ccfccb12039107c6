import Chatlink.Agent.ResolverSteps

/-!
# Words that stand for each other

A name is compared by its canonical words: each token is folded to the least of its variants. Being
a variant is symmetric, yet not transitive: an English word with two Spanish ones, or a word with a
translation and a plural form, stands between words that are no variants of each other, and the
least of them is out of reach for the other. The lexicon is finite, so the pairs that are folded
apart are a list.
-/
namespace Chatlink.Agent

/-! ## The lexicon -/

def traducibles : List Texto := bilingualPairs.map Prod.fst ++ bilingualPairs.map Prod.snd

/-- The pairs of variants that are folded apart: the second Spanish word of an English one, and a
word from the plural form of its own when it has an earlier translation. -/
def desencuentros : List (Texto × Texto) :=
  ([("brush", "pincel"), ("face", "rostro"), ("hair", "pelo"), ("purple", "violeta"),
    ("conditioner", "conditionere"), ("cotton", "cottone"), ("gold", "golde"), ("hair", "haire"),
    ("limpiador", "limpiadore"), ("liner", "linere"), ("marron", "marrone"),
    ("moisturizer", "moisturizere"), ("pincel", "pincele"), ("powder", "powdere"),
    ("purpl", "purple"), ("remover", "removere"), ("rimel", "rimele"), ("secador", "secadore"),
    ("silver", "silvere"), ("skin", "skine"), ("towel", "towele"), ("verd", "verde")] :
    List (String × String)).map fun (t, u) => (t.toList, u.toList)

def Desencuentro (t u : Texto) : Prop := (t, u) ∈ desencuentros ∨ (u, t) ∈ desencuentros

instance (t u : Texto) : Decidable (Desencuentro t u) := inferInstanceAs (Decidable (_ ∨ _))

theorem desencuentro_comm {t u : Texto} : Desencuentro t u ↔ Desencuentro u t := or_comm

theorem xlate_of_notMem {t : Texto} (h : t ∉ traducibles) : xlate t = [] := by
  refine List.filterMap_eq_nil_iff.mpr fun p hp => ?_
  have h1 : p.1 ≠ t := fun heq =>
    h (List.mem_append_left _ (List.mem_map.mpr ⟨p, hp, heq⟩))
  have h2 : p.2 ≠ t := fun heq =>
    h (List.mem_append_right _ (List.mem_map.mpr ⟨p, hp, heq⟩))
  simp [h1, h2]

theorem mem_xlate_symm {t u : Texto} (h : u ∈ xlate t) : t ∈ xlate u := by
  have hne : ∀ p ∈ bilingualPairs, p.1 ≠ p.2 := by decide
  obtain ⟨⟨es, en⟩, hp, hu⟩ := List.mem_filterMap.mp h
  refine List.mem_filterMap.mpr ⟨(es, en), hp, ?_⟩
  have hpair : es ≠ en := hne _ hp
  dsimp only at hu ⊢
  split at hu
  · next he =>
    obtain rfl := Option.some.inj hu
    rw [if_neg hpair, if_pos rfl, he]
  · split at hu
    · next he =>
      obtain rfl := Option.some.inj hu
      rw [if_pos rfl, he]
    · cases hu

/-! ## The other side of a plural -/

/-- `l`, `r`, `n` or `d`. -/
def liquida (c : Option Char) : Bool := c.any fun c => c ∈ ['l', 'r', 'n', 'd']

/-- The other form of a plural in `-es`, if the token may be one. -/
def plural (t : Texto) : List Texto :=
  if 4 < t.length ∧ t.getLast? = some 'e' ∧ liquida t.dropLast.getLast? then [t.dropLast]
  else if 3 < t.length ∧ liquida t.getLast? then [t ++ ['e']]
  else []

theorem variants_eq (t : Texto) : variants t = t :: xlate t ++ plural t := rfl

theorem liquida_e : liquida (some 'e') = false := by decide

/-- A token and its other form belong to each other. -/
theorem plural_of_mem {t u : Texto} (h : u ∈ plural t) : plural t = [u] ∧ plural u = [t] := by
  unfold plural at h ⊢
  split at h
  · next hc =>
    obtain ⟨hlen, he, hl⟩ := hc
    obtain rfl := List.mem_singleton.mp h
    have hdrop : t.dropLast ++ ['e'] = t := List.dropLast_append_getLast? 'e' he
    have hnote : t.dropLast.getLast? ≠ some 'e' := fun heq => by
      rw [heq, liquida_e] at hl
      cases hl
    refine ⟨if_pos ⟨hlen, he, hl⟩, ?_⟩
    have hlen' : 3 < t.dropLast.length := by
      rw [List.length_dropLast]
      omega
    rw [if_neg fun hc => hnote hc.2.1, if_pos ⟨hlen', hl⟩, hdrop]
  · next hno =>
    split at h
    · next hc =>
      obtain ⟨hlen, hl⟩ := hc
      obtain rfl := List.mem_singleton.mp h
      refine ⟨(if_neg hno).trans (if_pos ⟨hlen, hl⟩), ?_⟩
      have hdrop : (t ++ ['e']).dropLast = t := List.dropLast_concat
      have hlast : (t ++ ['e']).getLast? = some 'e' := List.getLast?_concat
      have hlen' : 4 < (t ++ ['e']).length := by
        rw [List.length_append, List.length_singleton]
        omega
      rw [hdrop, hlast, if_pos ⟨hlen', rfl, hl⟩]
    · cases h

theorem variants_symm {t u : Texto} (h : u ∈ variants t) : t ∈ variants u := by
  rw [variants_eq] at h ⊢
  rcases List.mem_append.mp h with h | h
  · rcases List.mem_cons.mp h with rfl | h
    · exact List.mem_append_left _ List.mem_cons_self
    · exact List.mem_append_left _ (List.mem_cons_of_mem _ (mem_xlate_symm h))
  · rw [(plural_of_mem h).2]
    exact List.mem_append_right _ List.mem_cons_self

/-! ## Canonical words -/

theorem minTexto_pair (t u : Texto) : minTexto [t, u] = minTexto [u, t] := by
  simp only [minTexto, List.foldl_cons, List.foldl_nil]
  rcases lt_trichotomy t u with h | h | h
  · rw [if_neg (lt_asymm h), if_pos h]
  · rw [h]
  · rw [if_pos h, if_neg (lt_asymm h)]

theorem espanolas_collide : ∀ t ∈ bilingualPairs.map Prod.fst, ∀ u ∈ variants t,
    (minTexto (variants t) = minTexto (variants u) ↔ ¬ Desencuentro t u) := by
  -- the words are spelled out first, not at every comparison
  simp only [variants_eq, xlate, Desencuentro, desencuentros, bilingualPairs, List.map_cons,
    List.map_nil, String.reduceToList]
  decide +kernel

theorem inglesas_collide : ∀ t ∈ bilingualPairs.map Prod.snd, ∀ u ∈ variants t,
    (minTexto (variants t) = minTexto (variants u) ↔ ¬ Desencuentro t u) := by
  simp only [variants_eq, xlate, Desencuentro, desencuentros, bilingualPairs, List.map_cons,
    List.map_nil, String.reduceToList]
  decide +kernel

/-- Every pair with a word of the lexicon. -/
theorem traducibles_collide : ∀ t ∈ traducibles, ∀ u ∈ variants t,
    (minTexto (variants t) = minTexto (variants u) ↔ ¬ Desencuentro t u) := by
  intro t ht
  rcases List.mem_append.mp ht with ht | ht
  · exact espanolas_collide t ht
  · exact inglesas_collide t ht

theorem not_desencuentro {t u : Texto} (ht : t ∉ traducibles) (hu : u ∉ traducibles) :
    ¬ Desencuentro t u := by
  have hall : ∀ p ∈ desencuentros, p.1 ∈ traducibles ∨ p.2 ∈ traducibles := by decide
  rintro (h | h)
  · exact (hall _ h).elim ht hu
  · exact (hall _ h).elim hu ht

/-- Two variants are folded to one word exactly when they are not one of the listed pairs. -/
theorem canonical_eq_iff {t u : Texto} (h : u ∈ variants t) :
    minTexto (variants t) = minTexto (variants u) ↔ ¬ Desencuentro t u := by
  by_cases ht : t ∈ traducibles
  · exact traducibles_collide t ht u h
  · by_cases hu : u ∈ traducibles
    · rw [eq_comm, desencuentro_comm]
      exact traducibles_collide u hu t (variants_symm h)
    · refine iff_of_true ?_ (not_desencuentro ht hu)
      have htv : variants t = t :: plural t := by rw [variants_eq, xlate_of_notMem ht]; rfl
      have huv : variants u = u :: plural u := by rw [variants_eq, xlate_of_notMem hu]; rfl
      rw [htv] at h
      rcases List.mem_cons.mp h with rfl | h
      · rfl
      · obtain ⟨hpt, hpu⟩ := plural_of_mem h
        rw [htv, huv, hpt, hpu]
        exact minTexto_pair t u

/-- Variants are folded to one canonical word exactly when they are not one of the listed pairs, and
then two names that differ by such variants have the same canonical words. -/
theorem variants_collide_iff (U : Unicode) :
    (∀ t u, u ∈ variants t →
      (minTexto (variants t) = minTexto (variants u) ↔ ¬ Desencuentro t u)) ∧
    ∀ name name', List.Forall₂ (fun t u => u ∈ variants t ∧ ¬ Desencuentro t u) (tokenize U name)
        (tokenize U name') →
      canonTokens U name = canonTokens U name' := by
  refine ⟨fun t u h => canonical_eq_iff h, fun name name' h => ?_⟩
  unfold canonTokens
  generalize tokenize U name = ts at h
  generalize tokenize U name' = us at h
  induction h with
  | nil => rfl
  | cons hone _ ih => rw [List.map_cons, List.map_cons, ih, (canonical_eq_iff hone.1).mpr hone.2]

theorem champu_is_shampoo : ("shampoo" : Texto) ∈ variants "champu" ∧
    minTexto (variants "champu") = minTexto (variants "shampoo") := by
  have hmem : ("shampoo" : Texto) ∈ variants "champu" := by decide
  exact ⟨hmem, ((variants_collide_iff .latin).1 _ _ hmem).mpr (by decide)⟩

/-- "pelo" and "hair" translate each other; "hair" is folded to "cabello". -/
theorem pelo_is_not_hair :
    ¬ ∀ t u : Texto, u ∈ variants t → minTexto (variants t) = minTexto (variants u) := by
  intro h
  have hpelo := h "pelo" "hair" (by decide)
  revert hpelo
  decide

end Chatlink.Agent
