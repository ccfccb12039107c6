import Chatlink.Lib.BitLists
import Chatlink.Lib.Loops

/-!
# Canonical codes

A code is given by how many code words there are of each length. The words of a length are consecutive
numbers, and the first of a length continues after the last that is one bit shorter. A word is found bit
by bit: the bits so far are looked up among the words after each of them.

The words of one length are an interval, and the intervals of all lengths follow each other without a gap.
So a table, or the end of the interval of each length, finds the same word.
-/
namespace Canonical

variable (count : ℕ → ℕ)

/-- The first word of a length. -/
@[grind =] def first : ℕ → ℕ
  | 0 => 0
  | l + 1 => 2 * (first l + count l)

/-- The number after the last word of a length. -/
def last (l : ℕ) : ℕ := first count l + count l

/-- How many words are shorter. -/
@[grind =] def offset : ℕ → ℕ
  | 0 => 0
  | l + 1 => offset l + count l

/-- The words of up to `M` bits with their lengths, in order. -/
def words (M : ℕ) : List (ℕ × ℕ) :=
  (List.range (M + 1)).flatMap fun l => (List.range (count l)).map fun k => (l, first count l + k)

/-- The first bits of a stream as a number. -/
@[grind =] def code (s : ℕ → Bool) : ℕ → ℕ
  | 0 => 0
  | l + 1 => 2 * code s l + (s l).toNat

/-- One more bit, until the bits so far are a word: its place among the words, and its length. -/
@[grind =] def walk (M : ℕ) (s : ℕ → Bool) : ℕ → ℕ → Option (ℕ × ℕ)
  | 0, _ => none
  | fuel + 1, l =>
    match (words count M).findIdx? (· == (l + 1, code s (l + 1))) with
    | some i => some (i, l + 1)
    | none => walk M s fuel (l + 1)

/-- The word at the beginning of a stream, found bit by bit among the words of up to `M` bits. -/
def decode (M : ℕ) (s : ℕ → Bool) : Option (ℕ × ℕ) := walk count M s M 0

/-- The first `l` bits of a stream are a word. -/
def Hit (s : ℕ → Bool) (l : ℕ) : Prop := first count l ≤ code s l ∧ code s l < last count l

/-- How much of the numbers of `M` bits the words of up to `M` bits take. -/
def weight (M : ℕ) : ℕ := ∑ l ∈ Finset.range (M + 1), count l * 2 ^ (M - l)

variable {count}

/-! ## Streams -/

theorem code_lt (s : ℕ → Bool) (l : ℕ) : code s l < 2 ^ l := by
  induction l with
  | zero => simp [code]
  | succ l ih =>
    have hbit := Bool.toNat_lt (s l)
    rw [code, pow_succ]
    omega

/-- Fewer bits of a stream are the higher ones. -/
theorem code_div (s : ℕ → Bool) {l M : ℕ} (h : l ≤ M) : code s M / 2 ^ (M - l) = code s l := by
  induction M, h using Nat.le_induction with
  | base => simp
  | succ M h ih =>
    have hbit := Bool.toNat_lt (s M)
    have hhalf : (2 * code s M + (s M).toNat) / 2 = code s M := by omega
    rw [code, show M + 1 - l = (M - l) + 1 by omega, pow_succ, Nat.mul_comm (2 ^ (M - l)),
      ← Nat.div_div_eq_div_mul, hhalf, ih]

theorem eq_of_code_eq {s t : ℕ → Bool} {l : ℕ} (h : code s l = code t l) : ∀ i < l, s i = t i := by
  induction l with
  | zero => exact fun i hi => absurd hi (Nat.not_lt_zero i)
  | succ l ih =>
    have hs := Bool.toNat_lt (s l)
    have ht := Bool.toNat_lt (t l)
    rw [code, code] at h
    have hbit : (s l).toNat = (t l).toNat := by omega
    intro i hi
    rcases Nat.lt_succ_iff_lt_or_eq.1 hi with hi | rfl
    · exact ih (by omega) i hi
    · cases hsi : s i <;> cases hti : t i <;> simp [hsi, hti] at hbit ⊢

theorem code_congr {s t : ℕ → Bool} {l : ℕ} (h : ∀ i < l, s i = t i) : code s l = code t l := by
  induction l with
  | zero => rfl
  | succ l ih => rw [code, code, ih fun i hi => h i (Nat.lt_succ_of_lt hi), h l (Nat.lt_succ_self l)]

/-- A number's highest bits. -/
theorem code_testBit {x M k : ℕ} (hx : x < 2 ^ M) (hk : k ≤ M) :
    code (fun i => x.testBit (M - 1 - i)) k = x / 2 ^ (M - k) := by
  induction k with
  | zero => simp [code, Nat.div_eq_of_lt hx]
  | succ k ih =>
    have hsucc : M - k = M - (k + 1) + 1 := by omega
    have hplace : M - 1 - k = M - (k + 1) := by omega
    have hbit : (x.testBit (M - (k + 1))).toNat = x / 2 ^ (M - (k + 1)) % 2 := by
      rw [Nat.testBit_eq_decide_div_mod_eq]
      rcases Nat.mod_two_eq_zero_or_one (x / 2 ^ (M - (k + 1))) with h | h <;> simp [h]
    rw [code, ih (by omega), hsucc, hplace, hbit, pow_succ, ← Nat.div_div_eq_div_mul]
    omega

/-- What the first bits are as a number. -/
theorem code_eq_iff {s : ℕ → Bool} {l c : ℕ} (hc : c < 2 ^ l) :
    code s l = c ↔ ∀ i < l, s i = c.testBit (l - 1 - i) := by
  have hself : code (fun i => c.testBit (l - 1 - i)) l = c := by simpa using code_testBit hc le_rfl
  constructor
  · intro h
    exact eq_of_code_eq (h.trans hself.symm)
  · intro h
    exact (code_congr h).trans hself

/-! ## Intervals -/

theorem first_succ (l : ℕ) : first count (l + 1) = 2 * last count l := rfl

theorem offset_mono {l l' : ℕ} (h : l ≤ l') : offset count l ≤ offset count l' := by
  induction l', h using Nat.le_induction with
  | base => exact le_rfl
  | succ l' _ ih => exact ih.trans (Nat.le_add_right _ _)

/-- After all words of a length come those of a greater length. -/
theorem last_mul_le {l l' : ℕ} (h : l < l') : last count l * 2 ^ (l' - l) ≤ first count l' := by
  induction l', h using Nat.le_induction with
  | base =>
    rw [first_succ, Nat.sub_eq_of_eq_add (Nat.add_comm l 1), pow_one, Nat.mul_comm]
  | succ l' h ih =>
    have hle : first count l' ≤ last count l' := Nat.le_add_right _ _
    rw [first_succ, show l' + 1 - l = (l' - l) + 1 by omega, pow_succ, ← Nat.mul_assoc, Nat.mul_comm _ 2]
    exact Nat.mul_le_mul_left 2 (ih.trans hle)

/-- A number that begins with a word, or with less, is less than the first word of its length. -/
theorem lt_first {l l' c : ℕ} (hlt : l < l') (h : c / 2 ^ (l' - l) < last count l) : c < first count l' := by
  have hpos : 0 < 2 ^ (l' - l) := by positivity
  have hword : (c / 2 ^ (l' - l) + 1) * 2 ^ (l' - l) ≤ last count l * 2 ^ (l' - l) := Nat.mul_le_mul_right _ h
  have hdiv := Nat.div_add_mod c (2 ^ (l' - l))
  have hmod := Nat.mod_lt c hpos
  have hle : last count l * 2 ^ (l' - l) ≤ first count l' := last_mul_le hlt
  nlinarith

/-- Bits that begin with a word are no word of a greater length. -/
theorem Hit.not_longer {s : ℕ → Bool} {l l' : ℕ} (h : Hit count s l) (hlt : l < l') : code s l' < first count l' := by
  apply lt_first hlt
  rw [code_div s hlt.le]
  exact h.2

/-- At most one length of a stream's beginning is a word. -/
theorem Hit.unique {s : ℕ → Bool} {l l' : ℕ} (h : Hit count s l) (h' : Hit count s l') : l = l' := by
  rcases lt_trichotomy l l' with hlt | heq | hgt
  · exact absurd (h.not_longer hlt) (Nat.not_lt.2 h'.1)
  · exact heq
  · exact absurd (h'.not_longer hgt) (Nat.not_lt.2 h.1)

/-- Bits no part of which is a word are at least the first word of their length. -/
theorem first_le {s : ℕ → Bool} {l : ℕ} (h : ∀ j < l, ¬ Hit count s j) : first count l ≤ code s l := by
  induction l with
  | zero => exact Nat.zero_le _
  | succ l ih =>
    have hle := ih fun j hj => h j (Nat.lt_succ_of_lt hj)
    have hlast : last count l ≤ code s l := by
      by_contra hlt
      exact h l (Nat.lt_succ_self l) ⟨hle, Nat.not_le.1 hlt⟩
    rw [first_succ, code]
    omega

/-- Where no shorter part is a word, only the end of the interval is compared. -/
theorem hit_iff {s : ℕ → Bool} {l : ℕ} (h : ∀ j < l, ¬ Hit count s j) : Hit count s l ↔ code s l < last count l :=
  ⟨fun hit => hit.2, fun hlt => ⟨first_le h, hlt⟩⟩

/-! ## Room -/

theorem weight_succ (M : ℕ) : weight count (M + 1) = 2 * weight count M + count (M + 1) := by
  rw [weight, Finset.sum_range_succ, Nat.sub_self, pow_zero, Nat.mul_one, weight, Finset.mul_sum]
  congr 1
  apply Finset.sum_congr rfl
  intro l hl
  rw [Finset.mem_range] at hl
  rw [show M + 1 - l = (M - l) + 1 by omega, pow_succ]
  ring

theorem last_eq_weight (l : ℕ) : last count l = weight count l := by
  induction l with
  | zero => simp [last, weight, first]
  | succ l ih => rw [weight_succ, ← ih, last, first_succ]

/-- A code that fits into the numbers of `M` bits fits into those of fewer. -/
theorem last_le {M : ℕ} (h : weight count M ≤ 2 ^ M) {l : ℕ} (hl : l ≤ M) : last count l ≤ 2 ^ l := by
  induction M, hl using Nat.le_induction with
  | base => rw [last_eq_weight]; exact h
  | succ M _ ih =>
    apply ih
    rw [weight_succ, pow_succ] at h
    omega

/-! ## Words -/

theorem length_words (M : ℕ) : (words count M).length = offset count (M + 1) := by
  have hsum : ∀ n, ((List.range n).flatMap fun l => (List.range (count l)).map fun k =>
      (l, first count l + k)).length = offset count n := by
    intro n
    induction n with
    | zero => rfl
    | succ n ih => simp [List.range_succ, offset, ih]
  exact hsum (M + 1)

theorem mem_words {M l c : ℕ} : (l, c) ∈ words count M ↔ l ≤ M ∧ first count l ≤ c ∧ c < last count l := by
  simp only [words, List.mem_flatMap, List.mem_range, List.mem_map, Prod.mk.injEq, last]
  constructor
  · rintro ⟨l, hl, k, hk, rfl, rfl⟩
    exact ⟨by omega, by omega, by omega⟩
  · rintro ⟨hl, hle, hlt⟩
    exact ⟨l, by omega, c - first count l, by omega, rfl, by omega⟩

theorem nodup_words (M : ℕ) : (words count M).Nodup := by
  rw [words, List.nodup_flatMap]
  constructor
  · intro l _
    apply List.nodup_range.map
    intro k k' h
    simpa using h
  · apply List.nodup_range.imp
    intro l l' hne
    rw [Function.onFun, List.disjoint_left]
    intro w hw hw'
    rw [List.mem_map] at hw hw'
    obtain ⟨k, _, rfl⟩ := hw
    obtain ⟨k', _, heq⟩ := hw'
    exact hne (Prod.mk.inj heq).1.symm

theorem getElem?_words {M l k : ℕ} (hl : l ≤ M) (hk : k < count l) :
    (words count M)[offset count l + k]? = some (l, first count l + k) := by
  have hlen : ((List.range l).flatMap fun j => (List.range (count j)).map fun k =>
      (j, first count j + k)).length = offset count l := by
    cases l with
    | zero => rfl
    | succ l => exact length_words l
  rw [words, Loops.range_split (Nat.lt_succ_of_le hl), List.flatMap_append, List.getElem?_append_right (by omega), hlen,
    Nat.add_sub_cancel_left, List.flatMap_cons, List.getElem?_append_left (by simpa using hk)]
  simp [hk]

theorem findIdx?_words {M l c : ℕ} (hl : l ≤ M) (hle : first count l ≤ c) (hlt : c < last count l) :
    (words count M).findIdx? (· == (l, c)) = some (offset count l + (c - first count l)) := by
  have hk : c - first count l < count l := by
    rw [last] at hlt
    omega
  have hget := getElem?_words hl hk
  rw [show first count l + (c - first count l) = c by omega] at hget
  obtain ⟨hi, hword⟩ := List.getElem?_eq_some_iff.1 hget
  rw [List.findIdx?_eq_some_iff_getElem]
  refine ⟨hi, by simp [hword], fun j hj heq => ?_⟩
  rw [beq_iff_eq, ← hword] at heq
  exact hj.ne ((nodup_words M).getElem_inj_iff.1 heq)

theorem findIdx?_words_eq_none {M l c : ℕ} (h : ¬ (first count l ≤ c ∧ c < last count l)) :
    (words count M).findIdx? (· == (l, c)) = none := by
  rw [List.findIdx?_eq_none_iff]
  rintro ⟨l', c'⟩ hmem
  rw [beq_eq_false_iff_ne]
  intro heq
  obtain ⟨rfl, rfl⟩ := Prod.mk.inj heq
  exact h (mem_words.1 hmem).2

/-- The bits that are a word end the walk. -/
theorem walk_eq_some {M : ℕ} {s : ℕ → Bool} {l : ℕ} (hit : Hit count s l) (hl : l ≤ M) {fuel j : ℕ} (hj : j < l)
    (hfuel : j + fuel = M) :
    walk count M s fuel j = some (offset count l + (code s l - first count l), l) := by
  induction fuel generalizing j with
  | zero => omega
  | succ fuel ih =>
    unfold walk
    rcases Nat.eq_or_lt_of_le hj with rfl | hlt
    · rw [findIdx?_words hl hit.1 hit.2]
    · have hmiss : ¬ Hit count s (j + 1) := fun h => hlt.ne (h.unique hit)
      rw [findIdx?_words_eq_none hmiss]
      exact ih hlt (by omega)

theorem walk_eq_none {M : ℕ} {s : ℕ → Bool} {fuel j : ℕ} (h : ∀ l, j < l → l ≤ M → ¬ Hit count s l)
    (hfuel : j + fuel = M) : walk count M s fuel j = none := by
  induction fuel generalizing j with
  | zero => rfl
  | succ fuel ih =>
    unfold walk
    rw [findIdx?_words_eq_none (h (j + 1) (by omega) (by omega))]
    exact ih (fun l hl hM => h l (by omega) hM) (by omega)

theorem decode_eq_some {M : ℕ} {s : ℕ → Bool} {l : ℕ} (hit : Hit count s l) (h₀ : 0 < l) (hl : l ≤ M) :
    decode count M s = some (offset count l + (code s l - first count l), l) :=
  walk_eq_some hit hl h₀ (Nat.zero_add M)

theorem decode_eq_none {M : ℕ} {s : ℕ → Bool} (h : ∀ l, 0 < l → l ≤ M → ¬ Hit count s l) :
    decode count M s = none := walk_eq_none h (Nat.zero_add M)

/-! ## Symbols -/

section Symbols

variable (lens : List ℕ)

/-- How many symbols have code words of a length. -/
def countOf (l : ℕ) : ℕ := if l = 0 then 0 else lens.count l

/-- The length of a symbol's code word, zero if it has none. -/
def len (s : ℕ) : ℕ := lens.getD s 0

/-- How many symbols before have code words of that length. -/
def rank (s : ℕ) : ℕ := (lens.take s).count (len lens s)

/-- The code word of a symbol, as a number. -/
def codeword (s : ℕ) : ℕ := first (countOf lens) (len lens s) + rank lens s

/-- The code word of a symbol. -/
def word (s : ℕ) : List Bool := BitLists.big (len lens s) (codeword lens s)

/-- Code words of up to `M` bits for which there is room. -/
structure Fits (M : ℕ) : Prop where
  le : ∀ l ∈ lens, l ≤ M
  room : weight (countOf lens) M ≤ 2 ^ M

variable {lens} {M s s' : ℕ}

theorem lt_length (h : 0 < len lens s) : s < lens.length := by
  by_contra hle
  rw [len, List.getD_eq_default _ _ (Nat.not_lt.1 hle)] at h
  exact lt_irrefl 0 h

theorem len_eq_getElem (h : s < lens.length) : len lens s = lens[s] := by
  rw [len, List.getD_eq_getElem?_getD, List.getElem?_eq_getElem h, Option.getD_some]

theorem Fits.len_le (h : Fits lens M) (s : ℕ) : len lens s ≤ M := by
  rcases lt_or_ge s lens.length with hs | hs
  · rw [len_eq_getElem hs]
    exact h.le _ (List.getElem_mem hs)
  · rw [len, List.getD_eq_default _ _ hs]
    exact Nat.zero_le M

/-- One more symbol of its length. -/
theorem count_take_succ (h : s < lens.length) (l : ℕ) :
    (lens.take (s + 1)).count l = (lens.take s).count l + if len lens s = l then 1 else 0 := by
  rw [← List.take_append_getElem h, List.count_append, List.count_singleton, len_eq_getElem h]
  simp

theorem count_take_le (m l : ℕ) : (lens.take m).count l ≤ lens.count l :=
  (List.take_sublist m lens).count_le l

theorem rank_lt (h : 0 < len lens s) : rank lens s < countOf lens (len lens s) := by
  have hs := lt_length h
  have hsucc := count_take_succ hs (len lens s)
  have hle : (lens.take (s + 1)).count (len lens s) ≤ lens.count (len lens s) := count_take_le _ _
  rw [if_pos rfl] at hsucc
  rw [countOf, if_neg h.ne', rank]
  omega

/-- Of two symbols of a length the later one has the later code word. -/
theorem rank_lt_rank (h : s < s') (hs : 0 < len lens s) (hlen : len lens s = len lens s') :
    rank lens s < rank lens s' := by
  have hsucc := count_take_succ (lt_length hs) (len lens s)
  have hmono : (lens.take (s + 1)).count (len lens s) ≤ (lens.take s').count (len lens s) :=
    (List.take_sublist_take_left (Nat.succ_le_of_lt h)).count_le _
  rw [if_pos rfl] at hsucc
  rw [rank, rank, ← hlen]
  omega

theorem codeword_lt (h : 0 < len lens s) : codeword lens s < last (countOf lens) (len lens s) :=
  Nat.add_lt_add_left (rank_lt h) _

theorem Fits.codeword_lt (h : Fits lens M) (hs : 0 < len lens s) : codeword lens s < 2 ^ len lens s :=
  (Canonical.codeword_lt hs).trans_le (last_le h.room (h.len_le s))

/-- A stream that begins with a symbol's code word. -/
theorem hit_of_code {bits : ℕ → Bool} (hs : 0 < len lens s) (h : code bits (len lens s) = codeword lens s) :
    Hit (countOf lens) bits (len lens s) := by
  rw [Hit, h]
  exact ⟨Nat.le_add_right _ _, codeword_lt hs⟩

/-- No two symbols' code words begin one stream. -/
theorem eq_of_code {bits : ℕ → Bool} (hs : 0 < len lens s) (hs' : 0 < len lens s')
    (h : code bits (len lens s) = codeword lens s) (h' : code bits (len lens s') = codeword lens s') : s = s' := by
  have hlen := (hit_of_code hs h).unique (hit_of_code hs' h')
  rw [← hlen, h, codeword, codeword, ← hlen] at h'
  rcases lt_trichotomy s s' with hlt | heq | hgt
  · have hrank := rank_lt_rank hlt hs hlen
    omega
  · exact heq
  · have hrank := rank_lt_rank hgt hs' hlen.symm
    omega

/-- Bits that are a word are some symbol's. -/
theorem exists_symbol {bits : ℕ → Bool} {l : ℕ} (hit : Hit (countOf lens) bits l) (hl : 0 < l) :
    ∃ s, len lens s = l ∧ code bits l = codeword lens s ∧
      rank lens s = code bits l - first (countOf lens) l := by
  obtain ⟨hle, hlt⟩ := hit
  rw [last, countOf, if_neg hl.ne'] at hlt
  -- the symbol before which as many have the length
  have hrank : ∀ m ≤ lens.length, ∀ k < (lens.take m).count l,
      ∃ s, len lens s = l ∧ (lens.take s).count l = k := by
    intro m
    induction m with
    | zero => simp
    | succ m ih =>
      intro hm k hk
      rw [count_take_succ (by omega)] at hk
      by_cases hnew : k < (lens.take m).count l
      · exact ih (by omega) k hnew
      · split_ifs at hk with hlen
        · exact ⟨m, hlen, by omega⟩
        · omega
  obtain ⟨s, hlen, hs⟩ := hrank lens.length le_rfl (code bits l - first (countOf lens) l) (by
    rw [List.take_length]
    omega)
  refine ⟨s, hlen, ?_, ?_⟩
  · rw [codeword, rank, hlen, hs]
    omega
  · rw [rank, hlen, hs]

theorem countP_succ (n : ℕ) (lens : List ℕ) :
    lens.countP (fun l => 0 < l ∧ l < n + 1) = lens.countP (fun l => 0 < l ∧ l < n) + countOf lens n := by
  induction lens with
  | nil => simp [countOf]
  | cons a lens ih =>
    have hcount : countOf (a :: lens) n = countOf lens n + if 0 < a ∧ a = n then 1 else 0 := by
      unfold countOf
      rcases Nat.eq_zero_or_pos n with rfl | hn
      · have hno : ¬ (0 < a ∧ a = 0) := by omega
        simp [hno]
      · rw [if_neg hn.ne', if_neg hn.ne', List.count_cons]
        by_cases ha : a = n
        · simp [ha, hn]
        · simp [ha]
    rw [List.countP_cons, List.countP_cons, ih, hcount]
    simp only [decide_eq_true_eq]
    split_ifs <;> omega

/-- There are at most as many code words as symbols. -/
theorem offset_countOf_le (n : ℕ) : offset (countOf lens) n ≤ lens.length := by
  have hcount : offset (countOf lens) n = lens.countP fun l => 0 < l ∧ l < n := by
    induction n with
    | zero => simp [offset]
    | succ n ih => rw [offset, ih, countP_succ]
  rw [hcount]
  exact List.countP_le_length

/-! ### Bit by bit -/

variable (lens) in
/-- After each further bit of a list, is there a symbol whose code word the bits so far are? That symbol, and the
bits after its code word. -/
@[grind =] def lookup (r : List Bool) : ℕ → ℕ → Option (ℕ × List Bool)
  | 0, _ => none
  | fuel + 1, l =>
    if l < r.length then
      match (List.range lens.length).find? fun s => 0 < len lens s && word lens s == r.take (l + 1) with
      | some s => some (s, r.drop (l + 1))
      | none => lookup r fuel (l + 1)
    else none

@[simp] theorem length_word (s : ℕ) : (word lens s).length = len lens s := BitLists.length_big _ _

/-- A stream begins with a code word: its first bits are the code word as a number. -/
theorem code_of_word (h : Fits lens M) (hs : 0 < len lens s) (r : List Bool) :
    code (fun i => (word lens s ++ r).getD i false) (len lens s) = codeword lens s := by
  rw [code_eq_iff (h.codeword_lt hs)]
  intro i hi
  rw [List.getD_eq_getElem?_getD, List.getElem?_append_left (by rwa [length_word]), word, BitLists.getElem?_big hi,
    Option.getD_some]

/-- The bits of a list are a code word where they are it as a number. -/
theorem take_eq_word (h : Fits lens M) (hs : 0 < len lens s) {r : List Bool} (hlen : len lens s ≤ r.length)
    (hcode : code (fun i => r.getD i false) (len lens s) = codeword lens s) : r.take (len lens s) = word lens s := by
  rw [code_eq_iff (h.codeword_lt hs)] at hcode
  apply List.ext_getElem?
  intro i
  rcases lt_or_ge i (len lens s) with hi | hi
  · have hbit := hcode i hi
    rw [List.getD_eq_getElem?_getD, List.getElem?_eq_getElem (by omega), Option.getD_some] at hbit
    rw [List.getElem?_take_of_lt hi, List.getElem?_eq_getElem (by omega), word, BitLists.getElem?_big hi, hbit]
  · rw [List.getElem?_eq_none (by rw [List.length_take]; omega), List.getElem?_eq_none (by rwa [length_word])]

/-- Two code words that begin one list are of one symbol. -/
theorem eq_of_word (h : Fits lens M) (hs : 0 < len lens s) (hs' : 0 < len lens s') {r r' : List Bool}
    (heq : word lens s ++ r = word lens s' ++ r') : s = s' := by
  have hcode := code_of_word h hs r
  have hcode' := code_of_word h hs' r'
  rw [← heq] at hcode'
  exact eq_of_code hs hs' hcode hcode'

theorem lookup_eq_some (h : Fits lens M) (hs : 0 < len lens s) {r r' : List Bool} (hr : r = word lens s ++ r')
    {fuel l : ℕ} (hl : l < len lens s) (hfuel : len lens s ≤ l + fuel) : lookup lens r fuel l = some (s, r') := by
  have hlen : len lens s ≤ r.length := by
    rw [hr, List.length_append, length_word]
    omega
  -- the bits so far are a code word only when they are the symbol's
  have hfound : ∀ n s', 0 < len lens s' → word lens s' = r.take n → n ≤ r.length → s' = s ∧ n = len lens s := by
    intro n s' hs' hword hn
    have heq : word lens s' ++ r.drop n = word lens s ++ r' := by
      rw [hword, List.take_append_drop, hr]
    have hsame := eq_of_word h hs' hs heq
    refine ⟨hsame, ?_⟩
    have hlength := congrArg List.length hword
    rw [length_word, List.length_take, hsame] at hlength
    omega
  induction fuel generalizing l with
  | zero => omega
  | succ fuel ih =>
    unfold lookup
    rw [if_pos (by omega)]
    rcases Nat.eq_or_lt_of_le (Nat.succ_le_of_lt hl) with heq | hlt
    · have htake : r.take (l + 1) = word lens s := by
        rw [hr]
        exact List.take_left' (by rw [length_word]; exact heq.symm)
      have hfind : (List.range lens.length).find?
          (fun s' => 0 < len lens s' && word lens s' == r.take (l + 1)) = some s := by
        rw [List.find?_eq_some_iff_append]
        refine ⟨by simp [hs, htake], List.range s, List.range' (s + 1) (lens.length - (s + 1)),
          Loops.range_split (lt_length hs), fun s' hs' => ?_⟩
        rw [List.mem_range] at hs'
        by_contra hin
        simp only [Bool.not_eq_true', Bool.not_eq_false, Bool.and_eq_true, decide_eq_true_eq, beq_iff_eq] at hin
        exact hs'.ne (hfound (l + 1) s' hin.1 hin.2 (by omega)).1
      rw [hfind, hr]
      simp only
      rw [List.drop_left' (by rw [length_word]; exact heq.symm)]
    · have hnone : (List.range lens.length).find?
          (fun s' => 0 < len lens s' && word lens s' == r.take (l + 1)) = none := by
        rw [List.find?_eq_none]
        intro s' _ hin
        simp only [Bool.and_eq_true, decide_eq_true_eq, beq_iff_eq] at hin
        exact hlt.ne (hfound (l + 1) s' hin.1 hin.2 (by omega)).2
      rw [hnone]
      exact ih hlt (by omega)

theorem lookup_eq_none {r : List Bool} (h : ∀ s, 0 < len lens s → ¬ word lens s <+: r) (fuel l : ℕ) :
    lookup lens r fuel l = none := by
  induction fuel generalizing l with
  | zero => rfl
  | succ fuel ih =>
    unfold lookup
    split_ifs
    · have hnone : (List.range lens.length).find?
          (fun s => 0 < len lens s && word lens s == r.take (l + 1)) = none := by
        rw [List.find?_eq_none]
        intro s _ hin
        simp only [Bool.and_eq_true, decide_eq_true_eq, beq_iff_eq] at hin
        exact h s hin.1 (hin.2 ▸ List.take_prefix _ _)
      rw [hnone]
      exact ih (l + 1)
    · rfl

end Symbols

end Canonical
