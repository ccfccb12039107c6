import Chatlink.Media.Readers

/-!
# Symbols of a deflate stream

For any tables the decoder ends, and takes a bit at least. Where the code words fit it finds what is found bit
by bit, up to the last bit of the input.
-/
namespace Chatlink.Media.Inflate

open BitLists Canonical Loops
open Tachyon (Error)

variable {lens : List ℕ} {h : Huffman}

namespace Huffman

/-! ## Bit by bit -/

theorem or_bit (c : ℕ) {b : ℕ} (hb : b < 2) : 2 * c ||| b = 2 * c + b := by
  have hor := Nat.shiftLeft_add_eq_or_of_lt (i := 1) (b := b) (by simpa using hb) c
  rw [Nat.shiftLeft_eq, pow_one, Nat.mul_comm] at hor
  exact hor.symm

/-- The place of a code among the symbols. -/
theorem symbol_at (hfor : h.For lens) {c l : ℕ} (hle : first (countOf lens) l ≤ c)
    (hlt : c < last (countOf lens) l) :
    ∃ v, (if (0 : ℤ) ≤ offset (countOf lens) l + c - first (countOf lens) l then
        h.symbols[((offset (countOf lens) l : ℤ) + c - first (countOf lens) l).toNat]? else none) = some v := by
  have hplace : ((offset (countOf lens) l : ℤ) + c - first (countOf lens) l).toNat =
      offset (countOf lens) l + (c - first (countOf lens) l) := by omega
  have hin : offset (countOf lens) l + (c - first (countOf lens) l) < h.symbols.length := by
    have hoffset : offset (countOf lens) (l + 1) ≤ lens.length := offset_countOf_le _
    rw [offset] at hoffset
    rw [last] at hlt
    rw [hfor.symbolsLength]
    omega
  rw [if_pos (by omega), hplace, List.getElem?_eq_getElem hin]
  exact ⟨_, rfl⟩

/-- Whatever the code, the bits so far are at least the first code of their length, so no place is before the
first symbol. -/
theorem slow_ends (hfor : h.For lens) {n l c : ℕ} (hn : l + n = 16) (hc : first (countOf lens) l ≤ 2 * c) {s : Bits}
    (hs : s.Sound) :
    Ends (min n 1) (h.slow (List.range' l n) (2 * c) (first (countOf lens) l) (offset (countOf lens) l))
      (fun _ => True) s := by
  induction n generalizing l c s with
  | zero => exact ends_throw _ _ _ _
  | succ n ih =>
    rw [List.range'_succ, slow]
    have htake := ends_take hs (show 1 ≤ 56 by norm_num)
    refine Ends.mono (ends_bind (j := 0) htake fun b s' hs' _ hb => ?_) (by omega) fun _ hv => hv
    refine ends_option (hfor.counts l (by omega)) ?_
    rw [or_bit c (by simpa using hb)]
    split_ifs with hin
    · obtain ⟨v, hv⟩ := symbol_at hfor (c := 2 * c + b) (l := l) (by omega) (by rw [last]; omega)
      simp only [hv]
      exact ends_pure hs' trivial
    · have hlast : last (countOf lens) l ≤ 2 * c + b := by
        rw [last]
        omega
      have hnext := ih (l := l + 1) (c := 2 * c + b) (by omega) (by rw [first_succ]; omega) hs'
      rw [Nat.shiftLeft_eq, pow_one, Nat.mul_comm, Nat.shiftLeft_eq, pow_one, Nat.mul_comm _ 2]
      exact hnext.mono (Nat.zero_le _) fun _ hv => hv

/-! ## The table -/

/-- What the bits of a reader are, with zeros after them. -/
def bitsOf (s : Bits) (i : ℕ) : Bool := s.rest.getD i false

/-- What is done once the entry of the table is known. -/
def found (h : Huffman) (e : ℕ) : Inflating ℕ :=
  if e ≠ 0 then do
    skip (e &&& 15)
    return e >>> 4
  else slow h (List.range' 1 15) 0 0 0

/-- The next bits lead to an entry of the table. -/
theorem decode_eq (hfor : h.For lens) {s : Bits} (hs : s.Sound) :
    ∃ x e, x < 1024 ∧ (∀ i < 10, x.testBit i = bitsOf s i) ∧ h.fast[x]? = some e ∧ h.decode s = h.found e s.more := by
  have hpeek := peek_eq hs (show FAST ≤ 56 by decide)
  have hx : toNat (s.rest.take FAST) < 1024 :=
    (toNat_lt _).trans_le (Nat.pow_le_pow_right (by norm_num) (List.length_take_le FAST _))
  obtain ⟨e, hget⟩ : ∃ e, h.fast[toNat (s.rest.take FAST)]? = some e :=
    ⟨_, List.getElem?_eq_getElem (by rw [hfor.fastLength]; exact hx)⟩
  refine ⟨_, e, hx, fun i hi => ?_, hget, ?_⟩
  · rw [testBit_toNat, bitsOf, List.getD_eq_getElem?_getD, List.getD_eq_getElem?_getD,
      List.getElem?_take_of_lt (show i < FAST from hi)]
  · unfold decode
    rw [bind_apply, hpeek]
    change (liftM h.fast[toNat (s.rest.take FAST)]? >>= h.found : Inflating ℕ) s.more = _
    rw [hget]
    rfl

/-- The decoder ends, and takes a bit at least. -/
theorem decode_ends (hfor : h.For lens) {s : Bits} (hs : s.Sound) : Ends 1 h.decode (fun _ => True) s := by
  obtain ⟨x, e, -, -, hget, hrun⟩ := decode_eq hfor hs
  obtain ⟨hmore, hrest, hdata, -⟩ := hs.more
  have hleft : s.more.left = s.left := by rw [← Bits.length_rest, ← Bits.length_rest, hrest]
  have hends : Ends 1 (h.found e) (fun _ => True) s.more := by
    unfold found
    split_ifs with he
    · have hlow := (hfor.fast e (List.mem_of_getElem? hget)).resolve_left he
      have hsmall : e &&& 15 ≤ 15 := Nat.and_le_right
      have hskip := skip_more hs (show e &&& 15 ≤ 56 by omega)
      refine Ends.mono (k := 1 + 0) (ends_bind (Q := fun _ => True) ?_ fun _ s' hs' _ _ => ends_pure hs' trivial) le_rfl
        fun _ hv => hv
      split_ifs at hskip with hlen
      · obtain ⟨s', hok, hs', hdata', hrest'⟩ := hskip
        refine ⟨_, hok, fun v s'' heq => ?_⟩
        obtain ⟨rfl, rfl⟩ := Prod.mk.inj (Except.ok.inj heq)
        refine ⟨hs', hdata'.trans hdata.symm, ?_, trivial⟩
        rw [hleft, ← Bits.length_rest, ← Bits.length_rest, hrest', List.length_drop]
        omega
      · obtain ⟨err, herr⟩ := hskip
        exact ⟨_, herr, nofun⟩
    · have hslow := slow_ends hfor (n := 15) (l := 1) (c := 0) rfl (Nat.zero_le _) hmore
      exact hslow.mono le_rfl fun _ hv => hv
  obtain ⟨r, hr, hok⟩ := hends
  refine ⟨r, hrun.trans hr, fun v s' heq => ?_⟩
  obtain ⟨hs', hdata', hleft', hv⟩ := hok v s' heq
  exact ⟨hs', hdata'.trans hdata, by omega, hv⟩

/-! ## Symbols that fit -/

theorem bitsOf_word (hfits : Fits lens 15) {v : ℕ} (hv : 0 < len lens v) {s : Bits} {r : List Bool}
    (hr : s.rest = word lens v ++ r) : code (bitsOf s) (len lens v) = codeword lens v := by
  have hcode := code_of_word hfits hv r
  rw [← hr] at hcode
  exact hcode

/-- The bits of a code word as a stream. -/
def wordBit (lens : List ℕ) (v i : ℕ) : Bool := (word lens v).getD i false

theorem hit_word (hfits : Fits lens 15) {v : ℕ} (hv : 0 < len lens v) :
    code (wordBit lens v) (len lens v) = codeword lens v ∧ Hit (countOf lens) (wordBit lens v) (len lens v) := by
  have hcode := code_of_word hfits hv []
  rw [List.append_nil] at hcode
  exact ⟨hcode, hit_of_code hv hcode⟩

/-- The bits of a code word, one after the other, until there are enough. -/
theorem slow_reads (hfor : h.For lens) (hfits : Fits lens 15) {v : ℕ} (hv : 0 < len lens v) {n l : ℕ}
    (hn : l + 1 + n = 16) (hl : l < len lens v) {s : Bits} (hs : s.Sound) :
    Reads (h.slow (List.range' (l + 1) n) (2 * code (wordBit lens v) l) (first (countOf lens) (l + 1))
      (offset (countOf lens) (l + 1))) ((word lens v).drop l) v s := by
  obtain ⟨hcode, hit⟩ := hit_word hfits hv
  have hle := hfits.len_le v
  induction n generalizing l s with
  | zero => omega
  | succ n ih =>
    have hlt : l < (word lens v).length := by rwa [length_word]
    have hbit : (word lens v).drop l = little 1 (wordBit lens v l).toNat ++ (word lens v).drop (l + 1) := by
      rw [List.drop_eq_getElem_cons hlt, wordBit, List.getD_eq_getElem?_getD, List.getElem?_eq_getElem hlt,
        Option.getD_some]
      cases (word lens v)[l] <;> rfl
    have hsmall := Bool.toNat_lt (wordBit lens v l)
    have hnext : 2 * code (wordBit lens v) l + (wordBit lens v l).toNat = code (wordBit lens v) (l + 1) := rfl
    have hfirst : first (countOf lens) (l + 1) ≤ code (wordBit lens v) (l + 1) :=
      first_le fun j hj hitj => (hj.trans_le hl).ne (hitj.unique hit)
    rw [hbit, List.range'_succ, slow]
    refine reads_bind (reads_take hs (by norm_num) (by simpa using hsmall)) fun s' hs' _ _ => ?_
    refine reads_option (hfor.counts (l + 1) (by omega)) ?_
    rw [or_bit _ hsmall, hnext]
    rcases Nat.eq_or_lt_of_le (Nat.succ_le_of_lt hl) with heq | hlt'
    · -- all bits of the code word are read
      have hL : l + 1 = len lens v := heq
      have hlast := hit.2
      have hplace : ((offset (countOf lens) (l + 1) : ℤ) + code (wordBit lens v) (l + 1) -
          first (countOf lens) (l + 1)).toNat = place lens v := by
        rw [hL, hcode, codeword, place]
        omega
      rw [← hL, last] at hlast
      rw [if_pos (by omega)]
      simp only [hplace, hfor.symbols v hv]
      rw [if_pos (by omega), List.drop_eq_nil_of_le (by rw [length_word]; omega)]
      exact reads_pure hs' v
    · have hmiss : ¬ Hit (countOf lens) (wordBit lens v) (l + 1) := fun hm => hlt'.ne (hm.unique hit)
      have hlast : last (countOf lens) (l + 1) ≤ code (wordBit lens v) (l + 1) := by
        by_contra hlast
        exact hmiss ⟨hfirst, Nat.not_le.1 hlast⟩
      rw [last] at hlast
      rw [if_neg (by omega)]
      have hrest := ih (l := l + 1) (by omega) hlt' hs'
      rw [Nat.shiftLeft_eq, pow_one, Nat.mul_comm, Nat.shiftLeft_eq, pow_one, Nat.mul_comm _ 2]
      exact hrest

/-- The code word that comes next is found. -/
theorem decode_reads (hfor : h.For lens) (hfits : Fits lens 15) {v : ℕ} (hv : 0 < len lens v) {s : Bits}
    (hs : s.Sound) : Reads h.decode (word lens v) v s := by
  intro r hr
  obtain ⟨x, e, hx, hbits, hget, hrun⟩ := decode_eq hfor hs
  obtain ⟨hmore, hrest, hdata, -⟩ := hs.more
  have hcovered := hfor.covered hfits
  have hcode := bitsOf_word hfits hv hr
  have hle := hfits.len_le v
  have hshort : ∀ u, len lens u ≤ 10 → code x.testBit (len lens u) = code (bitsOf s) (len lens u) := fun u hu =>
    code_congr fun i hi => hbits i (by omega)
  rw [hrun]
  unfold found
  rcases le_or_gt (len lens v) 10 with h10 | h10
  · have hentry := hcovered.code v (lt_length hv) hv h10 x hx ((hshort v h10).trans hcode)
    rw [hget, Option.some_inj] at hentry
    have hlow : e &&& 15 = len lens v := hentry ▸ entry_low hle v
    have hhigh : e >>> 4 = v := hentry ▸ entry_high hle v
    have hne : e ≠ 0 := by
      intro hzero
      rw [hzero] at hlow
      simp at hlow
      omega
    have hskip := skip_more hs (show len lens v ≤ 56 by omega)
    rw [hr, if_pos (by rw [List.length_append, length_word]; omega), List.drop_left' (length_word v)] at hskip
    obtain ⟨s', hok, hs', hdata', hrest'⟩ := hskip
    refine ⟨s', ?_, hs', hdata', hrest'⟩
    rw [if_pos hne, hlow, hhigh, bind_apply, hok]
    rfl
  · have hnone := hcovered.none x hx fun u _ hu₀ hu hcodeu => by
      have heq := eq_of_code hu₀ hv ((hshort u hu).symm.trans hcodeu) hcode
      rw [heq] at hu
      omega
    rw [hget, Option.some_inj] at hnone
    obtain ⟨s', hok, hs', hdata', hrest'⟩ := slow_reads hfor hfits hv (n := 15) (l := 0) rfl hv hmore r (hrest.trans hr)
    refine ⟨s', ?_, hs', hdata'.trans hdata, hrest'⟩
    rw [if_neg (by simpa using hnone)]
    exact hok

/-- Where no code word comes next, reading bit by bit ends in an error. -/
theorem slow_error (hfor : h.For lens) (hfits : Fits lens 15) {s₀ : Bits}
    (hno : ∀ v, 0 < len lens v → ¬ word lens v <+: s₀.rest) {n l : ℕ} (hn : l + 1 + n = 16) {s : Bits}
    (hs : s.Sound) (hrest : s.rest = s₀.rest.drop l) (hl : l ≤ s₀.rest.length)
    (hmiss : ∀ j ≤ l, ¬ Hit (countOf lens) (bitsOf s₀) j) :
    Errs (h.slow (List.range' (l + 1) n) (2 * code (bitsOf s₀) l) (first (countOf lens) (l + 1))
      (offset (countOf lens) (l + 1))) s := by
  induction n generalizing l s with
  | zero => exact ⟨_, rfl⟩
  | succ n ih =>
    have htake := take_eq hs (show 1 ≤ 56 by norm_num)
    rw [List.range'_succ, slow]
    split_ifs at htake with hlen
    · obtain ⟨s', hok, hs', -, hrest'⟩ := htake
      have hlt : l < s₀.rest.length := by
        rw [hrest, List.length_drop] at hlen
        omega
      have hbit : toNat (s.rest.take 1) = (bitsOf s₀ l).toNat := by
        rw [hrest, List.drop_eq_getElem_cons hlt, List.take_succ_cons, List.take_zero, bitsOf,
          List.getD_eq_getElem?_getD, List.getElem?_eq_getElem hlt, Option.getD_some]
        simp [BitLists.toNat]
      have hnext : 2 * code (bitsOf s₀) l + (bitsOf s₀ l).toNat = code (bitsOf s₀) (l + 1) := rfl
      -- a code word here would be a symbol's, and come next
      have hmiss' : ¬ Hit (countOf lens) (bitsOf s₀) (l + 1) := by
        intro hit
        obtain ⟨v, hlenv, hcode, -⟩ := exists_symbol hit (Nat.succ_pos l)
        have hv : 0 < len lens v := by omega
        rw [← hlenv] at hcode
        apply hno v hv
        rw [← take_eq_word hfits hv (by omega) hcode]
        exact List.take_prefix _ _
      have hall : ∀ j ≤ l + 1, ¬ Hit (countOf lens) (bitsOf s₀) j := by
        intro j hj
        rcases Nat.eq_or_lt_of_le hj with rfl | hj
        · exact hmiss'
        · exact hmiss j (by omega)
      have hlast : last (countOf lens) (l + 1) ≤ code (bitsOf s₀) (l + 1) := by
        by_contra hlast
        exact hmiss' ((hit_iff fun j hj => hall j (by omega)).2 (Nat.not_le.1 hlast))
      rw [last] at hlast
      refine errs_bind_ok hok (errs_option (hfor.counts (l + 1) (by omega)) ?_)
      rw [hbit, or_bit _ (Bool.toNat_lt (bitsOf s₀ l)), hnext, if_neg (by omega), Nat.shiftLeft_eq, pow_one,
        Nat.mul_comm, Nat.shiftLeft_eq, pow_one, Nat.mul_comm _ 2]
      exact ih (l := l + 1) (by omega) hs' (by rw [hrest', hrest, List.drop_drop]) hlt hall
    · exact errs_bind htake _

/-- The decoder agrees with reading bit by bit, to the last bit that is left. -/
theorem decode_eq_lookup (hfor : h.For lens) (hfits : Fits lens 15) {s : Bits} (hs : s.Sound) :
    match lookup lens s.rest 15 0 with
    | some (v, r) => ∃ s', h.decode s = some (.ok (v, s')) ∧ s'.Sound ∧ s'.data = s.data ∧ s'.rest = r
    | none => Errs h.decode s := by
  by_cases hword : ∃ v, 0 < len lens v ∧ word lens v <+: s.rest
  · obtain ⟨v, hv, r, hr⟩ := hword
    have hle := hfits.len_le v
    rw [lookup_eq_some hfits hv hr.symm hv (by omega)]
    exact decode_reads hfor hfits hv hs r hr.symm
  · have hno : ∀ v, 0 < len lens v → ¬ word lens v <+: s.rest := fun v hv hp => hword ⟨v, hv, hp⟩
    rw [lookup_eq_none hno]
    obtain ⟨x, e, hx, hbits, hget, hrun⟩ := decode_eq hfor hs
    obtain ⟨hmore, hrest, -, -⟩ := hs.more
    have hcovered := hfor.covered hfits
    suffices hfound : Errs (h.found e) s.more by
      obtain ⟨err, herr⟩ := hfound
      exact ⟨err, hrun.trans herr⟩
    unfold found
    split_ifs with he
    · -- the entry of a code word that goes beyond the last bit
      obtain ⟨v, hv, h10, hcode⟩ : ∃ v, 0 < len lens v ∧ len lens v ≤ 10 ∧
          code x.testBit (len lens v) = codeword lens v := by
        by_contra hnone
        have hzero := hcovered.none x hx fun v _ hv h10 hcode => hnone ⟨v, hv, h10, hcode⟩
        rw [hget, Option.some_inj] at hzero
        exact he hzero
      have hentry := hcovered.code v (lt_length hv) hv h10 x hx hcode
      rw [hget, Option.some_inj] at hentry
      rw [code_congr fun i hi => hbits i (by omega)] at hcode
      have hlow : e &&& 15 = len lens v := hentry ▸ entry_low (by omega) v
      have hshort : ¬ len lens v ≤ s.rest.length := by
        intro hle
        apply hno v hv
        rw [← take_eq_word hfits hv hle hcode]
        exact List.take_prefix _ _
      have hskip := skip_more hs (show len lens v ≤ 56 by omega)
      rw [if_neg hshort] at hskip
      rw [hlow]
      exact errs_bind hskip _
    · have hmiss : ∀ j ≤ 0, ¬ Hit (countOf lens) (bitsOf s) j := by
        rintro j hj ⟨-, hlt⟩
        rw [Nat.le_zero.1 hj, last, countOf, if_pos rfl] at hlt
        simp [first] at hlt
      exact slow_error hfor hfits hno (n := 15) (l := 0) rfl hmore hrest (Nat.zero_le _) hmiss

end Huffman

end Chatlink.Media.Inflate
