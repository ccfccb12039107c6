import Chatlink.Lib.Canonical
import Chatlink.Media.Inflate

/-!
# The tables of a deflate code

For any code lengths the tables are built without a read past an end. Where the code words fit, an index of
the table leads to the symbol whose code word its bits begin with, and every symbol is in its place.
-/
namespace Chatlink.Media.Inflate

open BitLists Canonical Loops

theorem put_eq {xs : List ℕ} {i : ℕ} (h : i < xs.length) (v : ℕ) : put xs i v = some (xs.set i v) := if_pos h

/-! ## Counts, places and first codes -/

section Counts

variable {lens : List ℕ}

theorem countsOf_eq (h : ∀ l ∈ lens, l ≤ 15) :
    ∃ counts, countsOf lens = some counts ∧ counts.length = 16 ∧ ∀ l < 16, counts[l]? = some (countOf lens l) := by
  have hrun : ∀ counts : List ℕ, counts.length = 16 → ∃ counts',
      lens.foldlM (fun counts l => do put counts l ((← counts[l]?) + 1)) counts = some counts' ∧
        counts'.length = 16 ∧ ∀ l < 16, counts'[l]? = some (counts.getD l 0 + lens.count l) := by
    induction lens with
    | nil =>
      intro counts hlen
      refine ⟨counts, rfl, hlen, fun l hl => ?_⟩
      rw [List.getD_eq_getElem?_getD, List.getElem?_eq_getElem (by omega)]
      simp
    | cons a lens ih =>
      intro counts hlen
      have ha : a < counts.length := by
        have hle := h a (by simp)
        omega
      obtain ⟨counts', hrun, hlen', hget⟩ := ih (fun l hl => h l (by simp [hl])) (counts.set a (counts[a] + 1))
        (by rw [List.length_set, hlen])
      refine ⟨counts', ?_, hlen', fun l hl => ?_⟩
      · rw [List.foldlM_cons, List.getElem?_eq_getElem ha]
        change (put counts a (counts[a] + 1)).bind _ = _
        rw [put_eq ha]
        exact hrun
      · rw [hget l hl, List.getD_eq_getElem?_getD, List.getD_eq_getElem?_getD, List.getElem?_set, List.count_cons]
        by_cases hal : a = l
        · subst hal
          simp [ha]
          omega
        · simp [hal]
  obtain ⟨counts, hcounts, hlen, hget⟩ := hrun (List.replicate 16 0) List.length_replicate
  refine ⟨counts.set 0 0, ?_, by rw [List.length_set, hlen], fun l hl => ?_⟩
  · unfold countsOf
    rw [hcounts]
    exact put_eq (by omega) 0
  · rw [List.getElem?_set, countOf]
    by_cases hl₀ : l = 0
    · subst hl₀
      simp [hlen]
    · rw [if_neg (Ne.symm hl₀), if_neg hl₀, hget l hl, List.getD_eq_getElem?_getD, List.getElem?_replicate_of_lt hl]
      simp

variable {counts : List ℕ}

theorem offsOf_eq (h : ∀ l < 16, counts[l]? = some (countOf lens l)) :
    ∃ offs, offsOf counts = some offs ∧ offs.length = 16 ∧ ∀ l < 16, offs[l]? = some (offset (countOf lens) l) := by
  obtain ⟨offs, hrun, hlen, hget⟩ := foldlM_range_of (m := Option) (n := 15)
    (fun offs i => do put offs (i + 1) ((← offs[i]?) + (← counts[i]?))) (s := List.replicate 16 0)
    (P := fun i offs => offs.length = 16 ∧ ∀ l ≤ i, offs[l]? = some (offset (countOf lens) l))
    ⟨List.length_replicate, fun l hl => by rw [Nat.le_zero.1 hl]; rfl⟩ (by
      rintro i hi offs ⟨hlen, hget⟩
      refine ⟨offs.set (i + 1) (offset (countOf lens) (i + 1)), ?_, by rw [List.length_set, hlen], fun l hl => ?_⟩
      · rw [hget i le_rfl, h i (by omega)]
        exact put_eq (by omega) _
      · rw [List.getElem?_set]
        rcases Nat.lt_succ_iff_lt_or_eq.1 (Nat.lt_succ_of_le hl) with hlt | rfl
        · rw [if_neg (by omega)]
          exact hget l (by omega)
        · rw [if_pos rfl, if_pos (by omega)])
  exact ⟨offs, hrun, hlen, fun l hl => hget l (by omega)⟩

theorem nextOf_eq (h : ∀ l < 16, counts[l]? = some (countOf lens l)) :
    ∃ code next, nextOf counts = some (code, next) ∧ next.length = 16 ∧
      ∀ l < 16, next[l]? = some (first (countOf lens) l) := by
  obtain ⟨⟨code, next⟩, hrun, hlen, -, hget⟩ := foldlM_range_of (m := Option) (n := 15)
    (fun (t : ℕ × List ℕ) i => do
      let code := (t.1 + (← counts[i]?)) <<< 1
      return (code, ← put t.2 (i + 1) code)) (s := (0, List.replicate 16 0))
    (P := fun i t => t.2.length = 16 ∧ t.1 = first (countOf lens) i ∧
      ∀ l ≤ i, t.2[l]? = some (first (countOf lens) l))
    ⟨List.length_replicate, rfl, fun l hl => by rw [Nat.le_zero.1 hl]; rfl⟩ (by
      rintro i hi ⟨code, next⟩ ⟨hlen, hcode, hget⟩
      simp only at hlen hcode hget
      have hshift : (code + countOf lens i) <<< 1 = first (countOf lens) (i + 1) := by
        rw [Nat.shiftLeft_eq, hcode, pow_one, Nat.mul_comm]
        rfl
      refine ⟨(first (countOf lens) (i + 1), next.set (i + 1) (first (countOf lens) (i + 1))), ?_,
        by rw [List.length_set, hlen], rfl, fun l hl => ?_⟩
      · simp only [h i (by omega), Option.bind_eq_bind, Option.bind_some, hshift, put_eq (by omega : i + 1 < next.length)]
      · rw [List.getElem?_set]
        rcases Nat.lt_succ_iff_lt_or_eq.1 (Nat.lt_succ_of_le hl) with hlt | rfl
        · rw [if_neg (by omega)]
          exact hget l (by omega)
        · rw [if_pos rfl, if_pos (by omega)])
  exact ⟨code, next, hrun, hlen, fun l hl => hget l (by omega)⟩

end Counts

/-! ## The table -/

theorem testBit_reversed {c len i : ℕ} (hlen : len ≤ 32) :
    (reversed c len).testBit i = (decide (i < len) && c.testBit (len - 1 - i)) := by
  rw [reversed, Nat.testBit_shiftRight, BitVec.testBit_toNat, BitVec.getLsbD_reverse, BitVec.getMsbD_eq_getLsbD,
    BitVec.getLsbD_ofNat]
  rcases lt_or_ge i len with hi | hi
  · have hplace : 32 - 1 - (32 - len + i) = len - 1 - i := by omega
    have hlt : 32 - len + i < 32 := by omega
    have hlt' : len - 1 - i < 32 := by omega
    simp [hi, hlt, hlt', hplace]
  · have hle : ¬ 32 - len + i < 32 := by omega
    simp [hle, Nat.not_lt.2 hi]

theorem reversed_lt (c : ℕ) {len : ℕ} (hlen : len ≤ 32) : reversed c len < 2 ^ len := by
  apply Nat.lt_pow_two_of_testBit
  intro i hi
  rw [testBit_reversed hlen]
  simp [Nat.not_lt.2 hi]

/-- The indices whose low bits are a code word, in the order they come out of a stream. -/
theorem mod_eq_reversed_iff {x c len : ℕ} (hlen : len ≤ 32) (hc : c < 2 ^ len) :
    x % 2 ^ len = reversed c len ↔ code x.testBit len = c := by
  rw [code_eq_iff hc]
  constructor
  · intro h i hi
    have hbit := congrArg (·.testBit i) h
    simp only [Nat.testBit_mod_two_pow, testBit_reversed hlen, hi, decide_true, Bool.true_and] at hbit
    exact hbit
  · intro h
    apply Nat.eq_of_testBit_eq
    intro i
    rw [Nat.testBit_mod_two_pow, testBit_reversed hlen]
    rcases lt_or_ge i len with hi | hi
    · rw [h i hi]
    · simp [Nat.not_lt.2 hi]

/-- A code word takes the indices that begin with it, and leaves the others. -/
theorem fillFast_eq {fast : List ℕ} (hfast : fast.length = 1024) (s c len : ℕ) :
    ∃ fast', fillFast fast s c len = some fast' ∧ fast'.length = 1024 ∧ ∀ x < 1024,
      fast'[x]? = if len ≤ 10 ∧ x % 2 ^ len = reversed c len then some (s <<< 4 ||| len) else fast[x]? := by
  unfold fillFast FAST
  split_ifs with hlen
  · have hpos : 0 < 2 ^ len := by positivity
    have hr := reversed_lt c (show len ≤ 32 by omega)
    have hpow : 2 ^ len * 2 ^ (10 - len) = 1024 := by
      rw [← pow_add, Nat.add_sub_of_le hlen]
      norm_num
    have hindex : ∀ k, reversed c len ||| k <<< len = 2 ^ len * k + reversed c len := by
      intro k
      rw [Nat.or_comm, ← Nat.shiftLeft_add_eq_or_of_lt hr, Nat.shiftLeft_eq, Nat.mul_comm]
    obtain ⟨fast', hrun, hlength, hget⟩ := foldlM_range_of (m := Option) (n := 1 <<< (10 - len))
      (fun fast k => put fast (reversed c len ||| k <<< len) (s <<< 4 ||| len)) (s := fast)
      (P := fun k fast' => fast'.length = 1024 ∧ ∀ x, fast'[x]? =
        if x % 2 ^ len = reversed c len ∧ x / 2 ^ len < k then some (s <<< 4 ||| len) else fast[x]?)
      ⟨hfast, by simp⟩ (by
        rintro k hk t ⟨hlength, hget⟩
        rw [Nat.one_shiftLeft] at hk
        have hlt : 2 ^ len * k + reversed c len < 1024 := by nlinarith
        refine ⟨t.set (2 ^ len * k + reversed c len) (s <<< 4 ||| len), ?_, by rw [List.length_set, hlength], fun x => ?_⟩
        · rw [hindex]
          exact put_eq (by omega) _
        · rw [List.getElem?_set, hget x]
          by_cases hx : 2 ^ len * k + reversed c len = x
          · have hmod : x % 2 ^ len = reversed c len := by
              rw [← hx, Nat.mul_add_mod, Nat.mod_eq_of_lt hr]
            have hdiv : x / 2 ^ len = k := by
              rw [← hx, Nat.mul_add_div hpos, Nat.div_eq_of_lt hr, Nat.add_zero]
            rw [if_pos hx, if_pos (by omega), if_pos ⟨hmod, by omega⟩]
          · have hiff : (x % 2 ^ len = reversed c len ∧ x / 2 ^ len < k) ↔
                (x % 2 ^ len = reversed c len ∧ x / 2 ^ len < k + 1) := by
              constructor
              · rintro ⟨hmod, hdiv⟩
                exact ⟨hmod, by omega⟩
              · rintro ⟨hmod, hdiv⟩
                refine ⟨hmod, lt_of_le_of_ne (Nat.le_of_lt_succ hdiv) fun hk => hx ?_⟩
                rw [← hmod, ← hk, Nat.div_add_mod]
            simp only [if_neg hx, hiff])
    refine ⟨fast', hrun, hlength, fun x hx => ?_⟩
    have hdiv : x / 2 ^ len < 1 <<< (10 - len) := by
      rw [Nat.one_shiftLeft, Nat.div_lt_iff_lt_mul hpos, Nat.mul_comm, hpow]
      exact hx
    simp only [hget, hdiv, and_true, hlen, true_and]
  · exact ⟨fast, rfl, hfast, fun x _ => by simp [hlen]⟩

/-! ## Symbols -/

theorem entry_low {l : ℕ} (hl : l ≤ 15) (s : ℕ) : (s <<< 4 ||| l) &&& 15 = l := by
  rw [← Nat.shiftLeft_add_eq_or_of_lt (by omega), Nat.shiftLeft_eq, show 15 = 2 ^ 4 - 1 from rfl,
    Nat.and_two_pow_sub_one_eq_mod]
  omega

theorem entry_high {l : ℕ} (hl : l ≤ 15) (s : ℕ) : (s <<< 4 ||| l) >>> 4 = s := by
  rw [← Nat.shiftLeft_add_eq_or_of_lt (by omega), Nat.shiftLeft_eq, Nat.shiftRight_eq_div_pow]
  omega

section Filling

variable (lens : List ℕ)

/-- The place of a symbol among the symbols with code words. -/
def place (s : ℕ) : ℕ := offset (countOf lens) (len lens s) + rank lens s

/-- Tables with the first `m` symbols. -/
structure Filled (m : ℕ) (t : Filling) : Prop where
  symbolsLength : t.symbols.length = lens.length
  symbols : ∀ s < m, 0 < len lens s → t.symbols[place lens s]? = some s
  offsLength : t.offs.length = 16
  offs : ∀ l < 16, 0 < l → t.offs[l]? = some (offset (countOf lens) l + (lens.take m).count l)
  nextLength : t.next.length = 16
  next : ∀ l < 16, 0 < l → t.next[l]? = some (first (countOf lens) l + (lens.take m).count l)
  fastLength : t.fast.length = 1024
  fast : ∀ e ∈ t.fast, e = 0 ∨ 0 < e &&& 15

/-- A table in which an index leads to that of the first `m` symbols whose code word it begins with. -/
structure Covered (m : ℕ) (fast : List ℕ) : Prop where
  code : ∀ s < m, 0 < len lens s → len lens s ≤ 10 → ∀ x < 1024,
    code x.testBit (len lens s) = codeword lens s → fast[x]? = some (s <<< 4 ||| len lens s)
  none : ∀ x < 1024, (∀ s < m, 0 < len lens s → len lens s ≤ 10 →
    Canonical.code x.testBit (len lens s) ≠ codeword lens s) → fast[x]? = some 0

variable {lens}

theorem place_lt {s : ℕ} (hs : 0 < len lens s) : place lens s < offset (countOf lens) (len lens s + 1) :=
  Nat.add_lt_add_left (rank_lt hs) _

theorem place_lt_length {s : ℕ} (hs : 0 < len lens s) : place lens s < lens.length :=
  (place_lt hs).trans_le (offset_countOf_le _)

theorem place_ne {s s' : ℕ} (hlt : s < s') (hs : 0 < len lens s) (hs' : 0 < len lens s') :
    place lens s ≠ place lens s' := by
  rcases lt_trichotomy (len lens s) (len lens s') with hlen | hlen | hlen
  · have hmono : offset (countOf lens) (len lens s + 1) ≤ offset (countOf lens) (len lens s') :=
      offset_mono (Nat.succ_le_of_lt hlen)
    have hplace := place_lt hs
    have hle : offset (countOf lens) (len lens s') ≤ place lens s' := Nat.le_add_right _ _
    omega
  · have hrank := rank_lt_rank hlt hs hlen
    unfold place
    rw [hlen]
    omega
  · have hmono : offset (countOf lens) (len lens s' + 1) ≤ offset (countOf lens) (len lens s) :=
      offset_mono (Nat.succ_le_of_lt hlen)
    have hplace := place_lt hs'
    have hle : offset (countOf lens) (len lens s) ≤ place lens s := Nat.le_add_right _ _
    omega

/-- A symbol without a code word changes nothing. -/
theorem Filled.skip {m : ℕ} {t : Filling} (h : Filled lens m t) (hm : m < lens.length) (hlen : len lens m = 0) :
    Filled lens (m + 1) t := by
  have hcount : ∀ l, 0 < l → (lens.take (m + 1)).count l = (lens.take m).count l := by
    intro l hl
    rw [count_take_succ hm, if_neg (by omega), Nat.add_zero]
  refine ⟨h.symbolsLength, fun s hs hpos => ?_, h.offsLength, fun l hl hpos => ?_, h.nextLength, fun l hl hpos => ?_,
    h.fastLength, h.fast⟩
  · rcases Nat.lt_succ_iff_lt_or_eq.1 hs with hlt | rfl
    · exact h.symbols s hlt hpos
    · omega
  · rw [hcount l hpos]
    exact h.offs l hl hpos
  · rw [hcount l hpos]
    exact h.next l hl hpos

theorem Covered.skip {m : ℕ} {fast : List ℕ} (h : Covered lens m fast) (hlen : len lens m = 0) :
    Covered lens (m + 1) fast := by
  refine ⟨fun s hs hpos => ?_, fun x hx hno => ?_⟩
  · rcases Nat.lt_succ_iff_lt_or_eq.1 hs with hlt | rfl
    · exact h.code s hlt hpos
    · omega
  · exact h.none x hx fun s hs => hno s (by omega)

/-- A code word's indices lead to its symbol; they are no other symbol's. -/
theorem Covered.fill {m : ℕ} {fast fast' : List ℕ} (h : Covered lens m fast) (hfits : Fits lens 15)
    (hpos : 0 < len lens m)
    (hget : ∀ x < 1024, fast'[x]? = if len lens m ≤ 10 ∧ x % 2 ^ len lens m = reversed (codeword lens m) (len lens m)
      then some (m <<< 4 ||| len lens m) else fast[x]?) : Covered lens (m + 1) fast' := by
  have hle := hfits.len_le m
  have hiff : ∀ x, x % 2 ^ len lens m = reversed (codeword lens m) (len lens m) ↔
      Canonical.code x.testBit (len lens m) = codeword lens m := fun x =>
    mod_eq_reversed_iff (by omega) (hfits.codeword_lt hpos)
  simp only [hiff] at hget
  refine ⟨fun s hs hs₀ hs₁ x hx hcode => ?_, fun x hx hno => ?_⟩
  · rw [hget x hx]
    rcases Nat.lt_succ_iff_lt_or_eq.1 hs with hlt | rfl
    · rw [if_neg fun hm => hlt.ne (eq_of_code hs₀ hpos hcode hm.2)]
      exact h.code s hlt hs₀ hs₁ x hx hcode
    · rw [if_pos ⟨hs₁, hcode⟩]
  · rw [hget x hx, if_neg fun hm => hno m (Nat.lt_succ_self m) hpos hm.1 hm.2]
    exact h.none x hx fun s hs => hno s (by omega)

/-- One more symbol. -/
theorem addSymbol_filled (hle : ∀ l ∈ lens, l ≤ 15) {m : ℕ} (hm : m < lens.length) {t : Filling}
    (h : Filled lens m t) :
    ∃ t', addSymbol t m (len lens m) = some t' ∧ Filled lens (m + 1) t' ∧
      (Fits lens 15 → Covered lens m t.fast → Covered lens (m + 1) t'.fast) := by
  rcases Nat.eq_zero_or_pos (len lens m) with hzero | hpos
  · refine ⟨t, by simp [addSymbol, hzero], h.skip hm hzero, fun _ hc => hc.skip hzero⟩
  · have hl : len lens m < 16 := by
      have hmem := hle _ (List.getElem_mem hm)
      rw [len_eq_getElem hm]
      omega
    have hplace : t.offs[len lens m]? = some (place lens m) := h.offs _ hl hpos
    have hcode : t.next[len lens m]? = some (codeword lens m) := h.next _ hl hpos
    have hsymbols : put t.symbols (place lens m) m = some (t.symbols.set (place lens m) m) :=
      put_eq (by rw [h.symbolsLength]; exact place_lt_length hpos) m
    have hoffs : put t.offs (len lens m) (place lens m + 1) = some (t.offs.set (len lens m) (place lens m + 1)) :=
      put_eq (by rw [h.offsLength]; exact hl) _
    have hnext : put t.next (len lens m) (codeword lens m + 1) =
        some (t.next.set (len lens m) (codeword lens m + 1)) := put_eq (by rw [h.nextLength]; exact hl) _
    obtain ⟨fast', hfast, hlength, hget⟩ := fillFast_eq h.fastLength m (codeword lens m) (len lens m)
    have hcount : ∀ l, (lens.take (m + 1)).count l = (lens.take m).count l + if len lens m = l then 1 else 0 :=
      count_take_succ hm
    refine ⟨⟨t.symbols.set (place lens m) m, t.offs.set (len lens m) (place lens m + 1),
      t.next.set (len lens m) (codeword lens m + 1), fast'⟩, ?_, ⟨?_, fun s hs hs₀ => ?_, ?_, fun l hl' hl₀ => ?_, ?_,
      fun l hl' hl₀ => ?_, hlength, fun e he => ?_⟩, fun hfits hc => hc.fill hfits hpos hget⟩
    · simp only [addSymbol, if_neg hpos.ne', hplace, hcode, hsymbols, hoffs, hnext, hfast, Option.bind_eq_bind,
        Option.bind_some, Option.pure_def]
    · rw [List.length_set, h.symbolsLength]
    · simp only [List.getElem?_set]
      rcases Nat.lt_succ_iff_lt_or_eq.1 hs with hlt | rfl
      · rw [if_neg (place_ne hlt hs₀ hpos).symm]
        exact h.symbols s hlt hs₀
      · rw [if_pos rfl, if_pos (by rw [h.symbolsLength]; exact place_lt_length hpos)]
    · rw [List.length_set, h.offsLength]
    · simp only [List.getElem?_set]
      split_ifs with heq
      · rw [← heq, hcount, if_pos rfl]
        rfl
      · exact absurd (h.offsLength ▸ heq ▸ hl') ‹_›
      · rw [hcount, if_neg heq, Nat.add_zero]
        exact h.offs l hl' hl₀
    · rw [List.length_set, h.nextLength]
    · simp only [List.getElem?_set]
      split_ifs with heq
      · rw [← heq, hcount, if_pos rfl]
        rfl
      · exact absurd (h.nextLength ▸ heq ▸ hl') ‹_›
      · rw [hcount, if_neg heq, Nat.add_zero]
        exact h.next l hl' hl₀
    · obtain ⟨x, hx, rfl⟩ := List.mem_iff_getElem.1 he
      have hx' : x < 1024 := hlength ▸ hx
      have hval := hget x hx'
      rw [List.getElem?_eq_getElem hx] at hval
      split_ifs at hval with hin
      · rw [Option.some_inj] at hval
        rw [hval, entry_low (by omega)]
        exact Or.inr hpos
      · exact h.fast _ (List.mem_of_getElem? hval.symm)

end Filling

/-- What the tables of a code are. -/
structure Huffman.For (lens : List ℕ) (h : Huffman) : Prop where
  fastLength : h.fast.length = 1024
  fast : ∀ e ∈ h.fast, e = 0 ∨ 0 < e &&& 15
  counts : ∀ l < 16, h.counts[l]? = some (countOf lens l)
  symbolsLength : h.symbols.length = lens.length
  symbols : ∀ s, 0 < len lens s → h.symbols[place lens s]? = some s
  covered : Fits lens 15 → Covered lens lens.length h.fast

/-- The tables are built for any code lengths of up to 15 bits. -/
theorem new_for {lens : List ℕ} (hle : ∀ l ∈ lens, l ≤ 15) :
    ∃ h, Huffman.new lens = some h ∧ h.For lens := by
  obtain ⟨counts, hcounts, -, hget⟩ := countsOf_eq hle
  obtain ⟨offs, hoffs, hoffsLength, hplaces⟩ := offsOf_eq hget
  obtain ⟨code, next, hnext, hnextLength, hcodes⟩ := nextOf_eq hget
  have hstart : Filled lens 0 ⟨List.replicate lens.length 0, offs, next, List.replicate (1 <<< FAST) 0⟩ := by
    refine ⟨List.length_replicate, fun s hs => absurd hs (Nat.not_lt_zero s), hoffsLength, fun l hl _ => ?_,
      hnextLength, fun l hl _ => ?_, List.length_replicate, fun e he => ?_⟩
    · simpa using hplaces l hl
    · simpa using hcodes l hl
    · exact Or.inl (List.eq_of_mem_replicate he)
  have hempty : Covered lens 0 (List.replicate (1 <<< FAST) 0) :=
    ⟨fun s hs => absurd hs (Nat.not_lt_zero s), fun x hx _ => List.getElem?_replicate_of_lt hx⟩
  -- symbol by symbol
  have hrun : ∀ m ≤ lens.length, ∃ t, (lens.zipIdx.take m).foldlM (fun t p => addSymbol t p.2 p.1)
      (⟨List.replicate lens.length 0, offs, next, List.replicate (1 <<< FAST) 0⟩ : Filling) = some t ∧
      Filled lens m t ∧ (Fits lens 15 → Covered lens m t.fast) := by
    intro m
    induction m with
    | zero => exact fun _ => ⟨_, rfl, hstart, fun _ => hempty⟩
    | succ m ih =>
      intro hm
      obtain ⟨t, hrun, ht, hc⟩ := ih (by omega)
      obtain ⟨t', hstep, ht', hc'⟩ := addSymbol_filled hle hm ht
      refine ⟨t', ?_, ht', fun hfits => hc' hfits (hc hfits)⟩
      have hlt : m < lens.zipIdx.length := by
        rw [List.length_zipIdx]
        exact hm
      rw [← List.take_append_getElem hlt, List.foldlM_append, hrun, List.getElem_zipIdx]
      rw [len_eq_getElem hm] at hstep
      simpa using hstep
  obtain ⟨t, hrun, ht, hc⟩ := hrun lens.length le_rfl
  rw [List.take_of_length_le (by rw [List.length_zipIdx])] at hrun
  refine ⟨⟨t.fast, counts, t.symbols⟩, ?_, ht.fastLength, ht.fast, hget, ht.symbolsLength,
    fun s hs => ht.symbols s (lt_length hs) hs, hc⟩
  unfold Huffman.new
  simp only [hcounts, hoffs, hnext, Option.bind_eq_bind, Option.bind_some]
  rw [hrun]
  rfl

end Chatlink.Media.Inflate
