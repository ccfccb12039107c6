import Chatlink.Media.Decoding
import Chatlink.Media.Deflate

/-!
# Deflate streams are read as they are written

Each part of a stream takes its bits and puts out what it stands for: copies that overlap, lengths that repeat,
codes from their lengths, blocks at a byte or within one.
-/
namespace Chatlink.Media.Inflate

open BitLists Canonical Loops Deflate
open Tachyon (Error)

/-! ## Copies -/

/-- The byte `back` bytes ago, also where it was just put out. -/
theorem getElem?_repeated {out : List UInt8} {back : ℕ} (hpos : 0 < back) (hle : back ≤ out.length) (i : ℕ) :
    (repeated out back i)[out.length - back + i]? = some (out.getD (out.length - back + i % back) 0) := by
  unfold repeated
  rcases lt_or_ge i back with hi | hi
  · have hlt : out.length - back + i < out.length := by omega
    rw [List.getElem?_append_left hlt, Nat.mod_eq_of_lt hi, List.getD_eq_getElem?_getD,
      List.getElem?_eq_getElem hlt, Option.getD_some]
  · have hsub : out.length - back + i - out.length = i - back := by omega
    have hlt : i - back < i := by omega
    have hmod : (i - back) % back = i % back := by
      conv_rhs => rw [← Nat.sub_add_cancel hi, Nat.add_mod_right]
    rw [List.getElem?_append_right (by omega), hsub]
    simp [hlt, hmod]

theorem copy_eq {out : List UInt8} {back : ℕ} (hpos : 0 < back) (hle : back ≤ out.length) (n : ℕ) :
    copy out (out.length - back) n = some (repeated out back n) := by
  have hrun := foldlM_range (m := Option) (fun out' i => do
    return out' ++ [← out'[out.length - back + i]?]) (fun i => repeated out back i) (n := n) fun i _ => by
      rw [getElem?_repeated hpos hle]
      simp [repeated, List.range_succ]
  have hzero : repeated out back 0 = out := by simp [repeated]
  rw [hzero] at hrun
  exact hrun

/-! ## Coded data -/

theorem length_code : ∀ k < 29, EXTRA[k]? = some (lengthExtra k) ∧
    BASES[k]? = some (if k = 28 then 258 else lengthBase k) ∧ lengthExtra k ≤ 5 := by decide

theorem distance_code : ∀ d < 30, (if d < 2 then 0 else d / 2 - 1) = distanceExtra d ∧
    (if d < 4 then d + 1 else ((2 + (d &&& 1)) <<< (if d < 2 then 0 else d / 2 - 1)) + 1) = distanceOf d 0 ∧
    distanceExtra d ≤ 13 ∧ 0 < distanceOf d 0 := by decide

section Codes

variable {lit dist : List ℕ} {hl hd : Huffman}

theorem distance_reads (hfor : hd.For dist) (hfits : Fits dist 15) {d y : ℕ} (hlt : d < 30) (hpos : 0 < len dist d)
    (hy : y < 2 ^ distanceExtra d) {s : Bits} (hs : s.Sound) :
    Reads (distance hd) (word dist d ++ little (distanceExtra d) y) (distanceOf d y) s := by
  obtain ⟨hextra, hbase, hle, -⟩ := distance_code d hlt
  refine reads_bind (Huffman.decode_reads hfor hfits hpos hs) fun s₁ hs₁ _ _ => ?_
  rw [if_neg (Nat.not_le.2 hlt)]
  rw [hextra] at hbase
  simp only [hextra, hbase]
  exact reads_bind_last (reads_take hs₁ (by omega) hy) fun s₂ hs₂ => reads_pure hs₂ _

/-- Coded data are read to their end. -/
theorem codes_reads (hlit : hl.For lit) (hlitFits : Fits lit 15) (hdist : hd.For dist) (hdistFits : Fits dist 15)
    {bits : List Bool} {out out' : List UInt8} (h : Coded lit dist bits out out') {fuel : ℕ}
    (hfuel : bits.length ≤ fuel) {s : Bits} (hs : s.Sound) : Reads (codes hl hd fuel out) bits out' s := by
  induction h generalizing fuel s with
  | stop hpos =>
    rw [length_word] at hfuel
    cases fuel with
    | zero => omega
    | succ fuel =>
      rw [codes]
      refine reads_bind_last (Huffman.decode_reads hlit hlitFits hpos hs) fun s₁ hs₁ => ?_
      rw [if_neg (by norm_num), if_pos rfl]
      exact reads_pure hs₁ _
  | byte b hpos rest ih =>
    rw [List.length_append, length_word] at hfuel
    cases fuel with
    | zero => omega
    | succ fuel =>
      rw [codes]
      refine reads_bind (Huffman.decode_reads hlit hlitFits hpos hs) fun s₁ hs₁ _ _ => ?_
      rw [if_pos b.toNat_lt, UInt8.ofNat_toNat]
      exact ih (by omega) hs₁
  | @reference bits out out' k x d y hk hpos hx hd₀ hdpos hy hback rest ih =>
    simp only [List.length_append, length_word] at hfuel
    obtain ⟨hextra, hbase, hle⟩ := length_code k hk
    obtain ⟨-, -, -, hdistance⟩ := distance_code d hd₀
    have hlength : (if k = 28 then 258 else lengthBase k) + x = lengthOf k x := by
      unfold lengthOf
      split_ifs with h28
      · subst h28
        simp [lengthExtra] at hx
        omega
      · rfl
    cases fuel with
    | zero => omega
    | succ fuel =>
      rw [codes]
      refine reads_bind (Huffman.decode_reads hlit hlitFits hpos hs) fun s₁ hs₁ _ _ => ?_
      rw [if_neg (by omega), if_neg (by omega), if_pos (by omega), Nat.add_sub_cancel_left]
      refine reads_option hextra (reads_option hbase ?_)
      refine reads_bind (reads_take hs₁ (by omega) hx) fun s₂ hs₂ _ _ => ?_
      rw [← List.append_assoc (word dist d)]
      refine reads_bind (distance_reads hdist hdistFits hd₀ hdpos hy hs₂) fun s₃ hs₃ _ _ => ?_
      rw [if_neg (Nat.not_lt.2 hback)]
      simp only [hlength]
      refine reads_option (copy_eq ?_ hback _) (ih (by omega) hs₃)
      unfold distanceOf at hdistance ⊢
      omega

end Codes

/-! ## Code lengths -/

theorem length_le_of_lengths {cl : List ℕ} {bits : List Bool} {ls ls' : List ℕ} (h : Lengths cl bits ls ls') :
    ls.length ≤ ls'.length := by
  induction h with
  | done => exact le_rfl
  | one _ _ _ _ ih =>
    rw [List.length_append] at ih
    omega
  | again _ _ _ _ _ _ ih =>
    rw [List.length_append] at ih
    omega
  | zeros _ _ _ _ ih =>
    rw [List.length_append] at ih
    omega
  | moreZeros _ _ _ _ ih =>
    rw [List.length_append] at ih
    omega

/-- Code lengths are read until there are enough. -/
theorem lengthsFrom_reads {cl : List ℕ} {h : Huffman} (hfor : h.For cl) (hfits : Fits cl 15) {bits : List Bool}
    {ls ls' : List ℕ} (hls : Lengths cl bits ls ls') {fuel : ℕ} (hfuel : bits.length ≤ fuel) {s : Bits}
    (hs : s.Sound) : Reads (lengthsFrom h ls'.length fuel ls) bits ls' s := by
  induction hls generalizing fuel s with
  | @done ls =>
    rw [lengthsFrom.eq_def, if_neg (lt_irrefl _)]
    exact reads_pure hs _
  | @one bits ls ls' l hl hpos rest ih =>
    have hmore := length_le_of_lengths rest
    rw [List.length_append, length_word] at hfuel
    rw [List.length_append, List.length_singleton] at hmore
    cases fuel with
    | zero => omega
    | succ fuel =>
      rw [lengthsFrom, if_pos (by omega)]
      refine reads_bind (Huffman.decode_reads hfor hfits hpos hs) fun s₁ hs₁ _ _ => ?_
      rw [length, if_pos hl, pure_bind]
      exact ih (by omega) hs₁
  | @again bits ls ls' x l hx hpos hlast rest ih =>
    have hmore := length_le_of_lengths rest
    simp only [List.length_append, length_word] at hfuel
    rw [List.length_append, List.length_replicate] at hmore
    cases fuel with
    | zero => omega
    | succ fuel =>
      rw [lengthsFrom, if_pos (by omega)]
      refine reads_bind (Huffman.decode_reads hfor hfits hpos hs) fun s₁ hs₁ _ _ => ?_
      rw [length, if_neg (by norm_num), if_pos rfl, bind_assoc]
      refine reads_bind (reads_take hs₁ (by norm_num) hx) fun s₂ hs₂ _ _ => ?_
      rw [hlast, pure_bind]
      exact ih (by omega) hs₂
  | @zeros bits ls ls' x hx hpos rest ih =>
    have hmore := length_le_of_lengths rest
    simp only [List.length_append, length_word] at hfuel
    rw [List.length_append, List.length_replicate] at hmore
    cases fuel with
    | zero => omega
    | succ fuel =>
      rw [lengthsFrom, if_pos (by omega)]
      refine reads_bind (Huffman.decode_reads hfor hfits hpos hs) fun s₁ hs₁ _ _ => ?_
      rw [length, if_neg (by norm_num), if_neg (by norm_num), if_pos rfl, bind_assoc]
      refine reads_bind (reads_take hs₁ (by norm_num) hx) fun s₂ hs₂ _ _ => ?_
      rw [pure_bind]
      exact ih (by omega) hs₂
  | @moreZeros bits ls ls' x hx hpos rest ih =>
    have hmore := length_le_of_lengths rest
    simp only [List.length_append, length_word] at hfuel
    rw [List.length_append, List.length_replicate] at hmore
    cases fuel with
    | zero => omega
    | succ fuel =>
      rw [lengthsFrom, if_pos (by omega)]
      refine reads_bind (Huffman.decode_reads hfor hfits hpos hs) fun s₁ hs₁ _ _ => ?_
      rw [length, if_neg (by norm_num), if_neg (by norm_num), if_neg (by norm_num), bind_assoc]
      refine reads_bind (reads_take hs₁ (by norm_num) hx) fun s₂ hs₂ _ _ => ?_
      rw [pure_bind]
      exact ih (by omega) hs₂

/-- Lengths of three bits are put where the order says. -/
theorem listed_reads {cl : List ℕ} (hthree : ∀ l ∈ cl, l < 2 ^ 3) (hcl : cl.length = 19) (is : List ℕ)
    (his : ∀ i ∈ is, i < 19) (start : List ℕ) (hstart : start.length = 19) :
    ∃ got : List ℕ, got.length = 19 ∧ (∀ i, got.getD i 0 = if i ∈ is then cl.getD i 0 else start.getD i 0) ∧
      ∀ s, s.Sound → Reads (is.foldlM (fun cl i => do
        let v ← take 3
        (put cl i v : Option (List ℕ))) start) (is.flatMap fun i => little 3 (cl.getD i 0)) got s := by
  induction is generalizing start with
  | nil => exact ⟨start, hstart, fun i => by simp, fun s hs => reads_pure hs start⟩
  | cons i is ih =>
    have hi := his i (by simp)
    have hv : cl.getD i 0 < 2 ^ 3 := by
      rw [List.getD_eq_getElem?_getD, List.getElem?_eq_getElem (by omega), Option.getD_some]
      exact hthree _ (List.getElem_mem _)
    obtain ⟨got, hgot, hget, hreads⟩ := ih (fun j hj => his j (by simp [hj])) (start.set i (cl.getD i 0))
      (by rw [List.length_set, hstart])
    refine ⟨got, hgot, fun j => ?_, fun s hs => ?_⟩
    · rw [hget j]
      by_cases hj : j ∈ is
      · simp [hj]
      · by_cases hij : j = i
        · subst hij
          simp [hj, List.getD_eq_getElem?_getD, hstart, hi]
        · simp [hj, hij, List.getD_eq_getElem?_getD, List.getElem?_set_ne (Ne.symm hij)]
    · rw [List.foldlM_cons, bind_assoc, List.flatMap_cons]
      refine reads_bind (reads_take hs (by norm_num) hv) fun s₁ hs₁ _ _ => ?_
      exact reads_option (put_eq (by omega) _) (hreads s₁ hs₁)

theorem mem_order : ∀ i ∈ Inflate.ORDER, i < 19 := by decide

/-- A dynamic block's codes are those whose lengths it lists. -/
theorem dynamic_reads {nlit ndist ncode : ℕ} {cl lens : List ℕ} {bits : List Bool}
    (head : Head nlit ndist ncode cl bits lens) {s : Bits} (hs : s.Sound) :
    ∃ hl hd, hl.For (lens.take (nlit + 257)) ∧ hd.For (lens.drop (nlit + 257)) ∧
      Reads dynamic (little 5 nlit ++ (little 5 ndist ++ (little 4 ncode ++
        ((Deflate.ORDER.take (ncode + 4)).flatMap (fun i => little 3 (cl.getD i 0)) ++ bits)))) (hl, hd) s := by
  obtain ⟨h, hnew, hfor⟩ := new_for head.code.le
  obtain ⟨hl, hnewLit, hforLit⟩ := new_for head.lit.le
  obtain ⟨hd, hnewDist, hforDist⟩ := new_for head.dist.le
  refine ⟨hl, hd, hforLit, hforDist, ?_⟩
  have horder : slice Inflate.ORDER 0 (ncode + 4) = some (Deflate.ORDER.take (ncode + 4)) := by
    have hlt := head.manyCode
    rw [slice_eq (Nat.zero_le _) (by simp [Inflate.ORDER]; omega)]
    rfl
  obtain ⟨got, hgot, hget, hreads⟩ := listed_reads head.three head.length (Deflate.ORDER.take (ncode + 4))
    (fun i hi => mem_order i (List.mem_of_mem_take hi)) (List.replicate 19 0) List.length_replicate
  -- what is not listed is zero
  have heq : got = cl := by
    apply List.ext_getElem?
    intro i
    rcases lt_or_ge i 19 with hi | hi
    · have hvalue := hget i
      have hzero : (List.replicate 19 0).getD i 0 = 0 := by
        rw [List.getD_eq_getElem?_getD, List.getElem?_replicate_of_lt hi, Option.getD_some]
      rw [hzero, List.getD_eq_getElem?_getD, List.getElem?_eq_getElem (by omega), Option.getD_some] at hvalue
      rw [List.getElem?_eq_getElem (by omega), hvalue]
      have hlist := head.listed i hi
      have hlen := head.length
      split_ifs with hin
      · rw [List.getD_eq_getElem?_getD, List.getElem?_eq_getElem (by omega), Option.getD_some]
      · rw [List.getD_eq_getElem?_getD, List.getElem?_eq_getElem (by omega), Option.getD_some] at hlist
        rw [List.getElem?_eq_getElem (by omega), hlist hin]
    · rw [List.getElem?_eq_none (by omega), List.getElem?_eq_none (by rw [head.length]; exact hi)]
  rw [heq] at hreads
  unfold dynamic
  refine reads_bind (reads_take hs (by norm_num) head.manyLit) fun s₁ hs₁ _ _ => ?_
  refine reads_bind (reads_take hs₁ (by norm_num) head.manyDist) fun s₂ hs₂ _ _ => ?_
  refine reads_bind (reads_take hs₂ (by norm_num) head.manyCode) fun s₃ hs₃ _ _ => ?_
  refine reads_option horder (reads_bind (hreads s₃ hs₃) fun s₄ hs₄ _ hlen => reads_option hnew (reads_get ?_))
  intro r hr
  have hfuel : bits.length ≤ s₄.left + 1 := by
    rw [← Bits.length_rest, hr, List.length_append]
    omega
  have hlengths := lengthsFrom_reads hfor head.code head.lengths hfuel hs₄
  rw [head.total] at hlengths
  refine reads_bind_last hlengths (fun s₅ hs₅ => ?_) r hr
  rw [if_neg (by rw [head.total]; exact lt_irrefl _)]
  exact reads_option hnewLit (reads_option hnewDist (reads_pure hs₅ _))

/-! ## Stored blocks -/

theorem bytes_reads (bytes out : List UInt8) {s : Bits} (hs : s.Sound) :
    Reads ((List.range bytes.length).foldlM (fun out _ => do return out ++ [UInt8.ofNat (← take 8)]) out)
      (ofBytesLittle bytes) (out ++ bytes) s := by
  induction bytes using List.reverseRecOn generalizing s with
  | nil =>
    rw [List.append_nil]
    exact reads_pure hs out
  | append_singleton bytes b ih =>
    rw [List.length_append, List.length_singleton, List.range_succ, List.foldlM_append, ofBytesLittle_append]
    refine reads_bind (ih hs) fun s₁ hs₁ _ _ => ?_
    rw [List.foldlM_cons, bind_assoc]
    refine reads_bind_last (reads_take hs₁ (by norm_num) b.toNat_lt) fun s₂ hs₂ => ?_
    rw [UInt8.ofNat_toNat, pure_bind, List.foldlM_nil, List.append_assoc]
    exact reads_pure hs₂ _

/-- A stored block, from wherever it is in a byte. -/
theorem stored_reads {pos : ℕ} {spare : List Bool} {bytes : List UInt8} (out : List UInt8)
    (hspare : spare.length = (8 - pos % 8) % 8) (hlen : bytes.length < 2 ^ 16) {s : Bits} (hs : s.Sound)
    (hpos : (s.rest.length + pos) % 8 = 0) :
    Reads (stored out) (spare ++ (little 16 bytes.length ++ (little 16 (2 ^ 16 - 1 - bytes.length) ++
      ofBytesLittle bytes))) (out ++ bytes) s := by
  have hskip : Reads (skip (s.n % 8)) spare () s := by
    intro r hr
    obtain ⟨s', hrun, hs', hdata, hrest⟩ := skip_eq hs (Nat.mod_le s.n 8)
    refine ⟨s', hrun, hs', hdata, ?_⟩
    have hleft := s.length_rest
    rw [Bits.left] at hleft
    rw [hrest, hr, List.drop_left' (by omega)]
  unfold stored
  refine reads_get (reads_bind hskip fun s₁ hs₁ _ _ => ?_)
  refine reads_bind (reads_take hs₁ (by norm_num) hlen) fun s₂ hs₂ _ _ => ?_
  refine reads_bind (reads_take hs₂ (by norm_num) (by omega)) fun s₃ hs₃ _ _ => ?_
  have hcomplement : bytes.length = (2 ^ 32 - 1 - (2 ^ 16 - 1 - bytes.length)) &&& 0xffff := by
    rw [show 0xffff = 2 ^ 16 - 1 from rfl, Nat.and_two_pow_sub_one_eq_mod]
    omega
  rw [if_neg (not_not.2 hcomplement)]
  exact bytes_reads bytes out hs₃

/-! ## Blocks -/

theorem head_bits : ∀ f < 2, ∀ t < 4, little 1 f ++ little 2 t = little 3 (f + 2 * t) := by decide

theorem head_type {f : ℕ} (hf : f < 2) (t : ℕ) : (f + 2 * t) >>> 1 = t ∧ (f + 2 * t) &&& 1 = f := by
  rw [Nat.shiftRight_eq_div_pow, Nat.and_one_is_mod]
  omega

/-- Distances coded in the same words are the same data. -/
theorem coded_congr {lit dist dist' : List ℕ} {bits : List Bool} {out out' : List UInt8}
    (hword : ∀ d < 30, 0 < len dist d → 0 < len dist' d ∧ word dist d = word dist' d)
    (h : Coded lit dist bits out out') : Coded lit dist' bits out out' := by
  induction h with
  | stop h => exact .stop h
  | byte b h _ ih => exact .byte b h ih
  | reference k x d y hk h hx hd hpos hy hback _ ih =>
    obtain ⟨hpos', heq⟩ := hword d hd hpos
    rw [heq]
    exact .reference k x d y hk h hx hd hpos' hy hback ih

theorem fixedLit_eq : fixedLit = FIXED := by decide +kernel

theorem fits_fixed : Fits FIXED 15 := ⟨by decide +kernel, by decide +kernel⟩

theorem fits_thirty : Fits (List.replicate 30 5) 15 := ⟨by decide, by decide⟩

/-- Of the 32 words of a fixed block's distances the first 30 are used. -/
theorem word_thirty : ∀ d < 30, 0 < len fixedDist d →
    0 < len (List.replicate 30 5) d ∧ word fixedDist d = word (List.replicate 30 5) d := by decide

theorem fixed_reads {bits : List Bool} {out out' : List UInt8} (h : Coded fixedLit fixedDist bits out out') {s : Bits}
    (hs : s.Sound) : Reads (fixed out) bits out' s := by
  obtain ⟨hl, hnewLit, hforLit⟩ := new_for fits_fixed.le
  obtain ⟨hd, hnewDist, hforDist⟩ := new_for fits_thirty.le
  have hcoded := coded_congr word_thirty h
  rw [fixedLit_eq] at hcoded
  refine reads_option hnewLit (reads_option hnewDist (reads_get fun r hr => ?_))
  have hfuel := s.length_rest
  rw [hr, List.length_append] at hfuel
  exact codes_reads hforLit fits_fixed hforDist fits_thirty hcoded (by omega) hs r hr

/-- A block is read, from wherever it is in a byte. -/
theorem block_reads {pos f : ℕ} (hf : f < 2) {bits : List Bool} {out out' : List UInt8}
    (h : Block (pos + 1) bits out out') {s : Bits} (hs : s.Sound) (hpos : (s.rest.length + pos) % 8 = 0) :
    Reads (block out) (little 1 f ++ bits) (out', decide (f = 1)) s := by
  have hhead : ∀ t < 4, f + 2 * t < 2 ^ 3 := by
    intro t ht
    omega
  cases h with
  | stored spare bytes hspare hlen =>
    obtain ⟨htype, hlast⟩ := head_type hf 0
    rw [← List.append_assoc, head_bits f hf 0 (by norm_num)]
    refine reads_bind (reads_take hs (by norm_num) (hhead 0 (by norm_num))) fun s₁ hs₁ _ hleft => ?_
    rw [length_little] at hleft
    rw [htype, hlast]
    exact reads_bind_last (stored_reads out hspare hlen hs₁ (by omega)) fun s₂ hs₂ => reads_pure hs₂ _
  | fixed h =>
    obtain ⟨htype, hlast⟩ := head_type hf 1
    rw [← List.append_assoc, head_bits f hf 1 (by norm_num)]
    refine reads_bind (reads_take hs (by norm_num) (hhead 1 (by norm_num))) fun s₁ hs₁ _ _ => ?_
    rw [htype, hlast]
    exact reads_bind_last (fixed_reads h hs₁) fun s₂ hs₂ => reads_pure hs₂ _
  | @dynamic bits bits' _ _ nlit ndist ncode cl lens head h =>
    obtain ⟨htype, hlast⟩ := head_type hf 2
    rw [← List.append_assoc, head_bits f hf 2 (by norm_num)]
    refine reads_bind (reads_take hs (by norm_num) (hhead 2 (by norm_num))) fun s₁ hs₁ _ _ => ?_
    rw [htype, hlast]
    obtain ⟨hl, hd, hforLit, hforDist, hreads⟩ := dynamic_reads head hs₁
    refine reads_bind_last (w := little 5 nlit ++ (little 5 ndist ++ (little 4 ncode ++
      ((Deflate.ORDER.take (ncode + 4)).flatMap (fun i => little 3 (cl.getD i 0)) ++ (bits ++ bits'))))) ?_
      fun s₂ hs₂ => reads_pure hs₂ _
    have hjoin : little 5 nlit ++ (little 5 ndist ++ (little 4 ncode ++
        ((Deflate.ORDER.take (ncode + 4)).flatMap (fun i => little 3 (cl.getD i 0)) ++ (bits ++ bits')))) =
        (little 5 nlit ++ (little 5 ndist ++ (little 4 ncode ++
          ((Deflate.ORDER.take (ncode + 4)).flatMap (fun i => little 3 (cl.getD i 0)) ++ bits)))) ++ bits' := by
      simp only [List.append_assoc]
    rw [hjoin]
    refine reads_bind hreads fun s₂ hs₂ _ _ => reads_get fun r hr => ?_
    have hfuel := s₂.length_rest
    rw [hr, List.length_append] at hfuel
    exact codes_reads hforLit head.lit hforDist head.dist h (by omega) hs₂ r hr

/-- All blocks are read, to the last. -/
theorem blocks_reads {pos : ℕ} {bits : List Bool} {out out' : List UInt8} (h : Blocks pos bits out out') {fuel : ℕ}
    (hfuel : bits.length ≤ fuel) {s : Bits} (hs : s.Sound) (hpos : (s.rest.length + pos) % 8 = 0) :
    Reads (blocks fuel out) bits out' s := by
  induction h generalizing fuel s with
  | last h =>
    rw [List.length_append, length_little] at hfuel
    cases fuel with
    | zero => omega
    | succ fuel =>
      rw [blocks]
      refine reads_bind_last (block_reads (by norm_num) h hs hpos) fun s₁ hs₁ => ?_
      exact reads_pure hs₁ _
  | more h rest ih =>
    rw [List.length_append, length_little, List.length_append] at hfuel
    cases fuel with
    | zero => omega
    | succ fuel =>
      rw [blocks, ← List.append_assoc]
      refine reads_bind (block_reads (by norm_num) h hs hpos) fun s₁ hs₁ _ hleft => ?_
      rw [List.length_append, length_little] at hleft
      exact ih (by omega) hs₁ (by omega)

end Chatlink.Media.Inflate
