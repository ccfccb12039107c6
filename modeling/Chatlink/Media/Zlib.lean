import Chatlink.Media.Checksum
import Chatlink.Media.Streams

/-!
# Any zlib stream ends

On every input the decoder ends, with an error or with bytes: each symbol takes a bit, every table is built,
every copy stays inside the output, and the checksum stays within 32 bits. On a stream that says something it
gives what the stream says.
-/
namespace Chatlink.Media.Inflate

open BitLists Canonical Loops Deflate
open Tachyon (Error)

/-! ## Parts that end -/

theorem skip_ends {s : Bits} (hs : s.Sound) {k : ℕ} (hk : k ≤ s.n) : Ends 0 (skip k) (fun _ => True) s := by
  obtain ⟨s', hrun, hs', hdata, hrest⟩ := skip_eq hs hk
  refine ⟨_, hrun, fun v s'' heq => ?_⟩
  obtain ⟨-, rfl⟩ := Prod.mk.inj (Except.ok.inj heq)
  refine ⟨hs', hdata, ?_, trivial⟩
  rw [← Bits.length_rest, ← Bits.length_rest, hrest, List.length_drop]
  omega

section Ends

variable {lit dist : List ℕ} {hl hd : Huffman}

theorem distance_ends (hfor : hd.For dist) {s : Bits} (hs : s.Sound) : Ends 0 (distance hd) (0 < ·) s := by
  refine Ends.mono (ends_bind (j := 0) (Huffman.decode_ends hfor hs) fun d s₁ hs₁ _ _ => ?_) (Nat.zero_le _) fun _ hv => hv
  by_cases hlt : 30 ≤ d
  · rw [if_pos hlt]
    exact ends_throw_bind _ _ _ _ _
  · obtain ⟨hextra, hbase, hle, hpos⟩ := distance_code d (by omega)
    rw [hextra] at hbase
    rw [if_neg hlt]
    simp only [hextra, hbase]
    exact ends_bind_zero (ends_take_zero hs₁ (by omega)) fun y s₂ hs₂ _ _ => ends_pure hs₂ (by omega)

theorem codes_ends (hlit : hl.For lit) (hdist : hd.For dist) {fuel : ℕ} {out : List UInt8} {s : Bits} (hs : s.Sound)
    (hfuel : s.left < fuel) : Ends 0 (codes hl hd fuel out) (fun _ => True) s := by
  induction fuel generalizing out s with
  | zero => omega
  | succ fuel ih =>
    rw [codes]
    refine Ends.mono (ends_bind (j := 0) (Huffman.decode_ends hlit hs) fun v s₁ hs₁ hleft _ => ?_) (Nat.zero_le _)
      fun _ hv => hv
    by_cases h₁ : v < 256
    · rw [if_pos h₁]
      exact ih hs₁ (by omega)
    rw [if_neg h₁]
    by_cases h₂ : v = 256
    · rw [if_pos h₂]
      exact ends_pure hs₁ trivial
    rw [if_neg h₂]
    by_cases h₃ : v ≤ 285
    · obtain ⟨hextra, hbase, hle⟩ := length_code (v - 257) (by omega)
      rw [if_pos h₃]
      refine ends_option hextra (ends_option hbase ?_)
      refine ends_bind_zero (ends_take_zero hs₁ (by omega)) fun x s₂ hs₂ hleft₂ _ => ?_
      refine ends_bind_zero (distance_ends hdist hs₂) fun back s₃ hs₃ hleft₃ hback => ?_
      by_cases hout : out.length < back
      · rw [if_pos hout]
        exact ends_throw_bind _ _ _ _ _
      · rw [if_neg hout]
        exact ends_option (copy_eq hback (Nat.not_lt.1 hout) _) (ih hs₃ (by omega))
    · rw [if_neg h₃]
      exact ends_throw _ _ _ _

/-- A run has at least one length, of no more than 15 bits where those before it have none. -/
theorem length_ends {v : ℕ} {ls : List ℕ} (hls : ∀ l ∈ ls, l ≤ 15) {s : Bits} (hs : s.Sound) :
    Ends 0 (length v ls.getLast?) (fun r => 0 < r.1 ∧ r.2 ≤ 15) s := by
  unfold length
  split_ifs with h₁ h₂ h₃
  · exact ends_pure hs ⟨Nat.one_pos, h₁⟩
  · refine ends_bind_zero (ends_take_zero hs (by norm_num)) fun x s₁ hs₁ _ _ => ?_
    cases hlast : ls.getLast? with
    | none => exact ends_throw _ _ _ _
    | some l => exact ends_pure hs₁ ⟨by omega, hls l (List.mem_of_getLast? hlast)⟩
  · exact ends_bind_zero (ends_take_zero hs (by norm_num)) fun x s₁ hs₁ _ _ => ends_pure hs₁ ⟨by omega, Nat.zero_le _⟩
  · exact ends_bind_zero (ends_take_zero hs (by norm_num)) fun x s₁ hs₁ _ _ => ends_pure hs₁ ⟨by omega, Nat.zero_le _⟩

theorem lengthsFrom_ends {cl : List ℕ} {h : Huffman} (hfor : h.For cl) {total fuel : ℕ} {ls : List ℕ}
    (hls : ∀ l ∈ ls, l ≤ 15) {s : Bits} (hs : s.Sound) (hfuel : s.left < fuel) :
    Ends 0 (lengthsFrom h total fuel ls) (fun ls' => ∀ l ∈ ls', l ≤ 15) s := by
  induction fuel generalizing ls s with
  | zero => omega
  | succ fuel ih =>
    rw [lengthsFrom]
    split_ifs
    · refine Ends.mono (ends_bind (j := 0) (Huffman.decode_ends hfor hs) fun v s₁ hs₁ hleft _ => ?_) (Nat.zero_le _)
        fun _ hv => hv
      refine ends_bind_zero (length_ends hls hs₁) fun r s₂ hs₂ hleft₂ hr => ?_
      refine ih (fun l hmem => ?_) hs₂ (by omega)
      rcases List.mem_append.1 hmem with hmem | hmem
      · exact hls l hmem
      · rw [List.eq_of_mem_replicate hmem]
        exact hr.2
    · exact ends_pure hs hls

/-- Lengths of three bits, nineteen of them. -/
theorem listed_ends {is start : List ℕ} (his : ∀ i ∈ is, i < 19) (hstart : start.length = 19 ∧ ∀ l ∈ start, l ≤ 15)
    {s : Bits} (hs : s.Sound) : Ends 0 (is.foldlM (fun cl i => do
      let v ← take 3
      (put cl i v : Option (List ℕ))) start) (fun cl => cl.length = 19 ∧ ∀ l ∈ cl, l ≤ 15) s := by
  refine ends_foldlM hs hstart fun cl hcl i hi s' hs' => ?_
  refine ends_bind_zero (ends_take_zero hs' (by norm_num)) fun v s₁ hs₁ _ hv => ?_
  have hlt := his i hi
  rw [put_eq (by omega)]
  refine ends_pure hs₁ ⟨by rw [List.length_set, hcl.1], fun l hl => ?_⟩
  rcases List.mem_or_eq_of_mem_set hl with hl | rfl
  · exact hcl.2 l hl
  · omega

theorem dynamic_ends {s : Bits} (hs : s.Sound) :
    Ends 0 dynamic (fun r => ∃ lit dist, r.1.For lit ∧ r.2.For dist) s := by
  unfold dynamic
  refine ends_bind_zero (ends_take_zero hs (by norm_num)) fun nlit s₁ hs₁ _ _ => ?_
  refine ends_bind_zero (ends_take_zero hs₁ (by norm_num)) fun ndist s₂ hs₂ _ _ => ?_
  refine ends_bind_zero (ends_take_zero hs₂ (by norm_num)) fun ncode s₃ hs₃ _ hcode => ?_
  have horder : slice Inflate.ORDER 0 (ncode + 4) = some (Inflate.ORDER.take (ncode + 4)) := by
    rw [slice_eq (Nat.zero_le _) (by simp [Inflate.ORDER]; omega)]
    rfl
  refine ends_option horder ?_
  have hstart : (List.replicate 19 0).length = 19 ∧ ∀ l ∈ List.replicate 19 0, l ≤ 15 :=
    ⟨List.length_replicate, fun l hl => by rw [List.eq_of_mem_replicate hl]; norm_num⟩
  refine ends_bind_zero (listed_ends (fun i hi => mem_order i (List.mem_of_mem_take hi)) hstart hs₃)
    fun cl s₄ hs₄ _ hcl => ?_
  obtain ⟨h, hnew, hfor⟩ := new_for hcl.2
  refine ends_option hnew (ends_get ?_)
  refine ends_bind_zero (lengthsFrom_ends hfor (by simp) hs₄ (Nat.lt_succ_self _)) fun ls s₅ hs₅ _ hls => ?_
  by_cases hover : nlit + 257 + (ndist + 1) < ls.length
  · rw [if_pos hover]
    exact ends_throw_bind _ _ _ _ _
  · obtain ⟨hl, hnewLit, hforLit⟩ := @new_for (ls.take (nlit + 257)) fun l hl => hls l (List.mem_of_mem_take hl)
    obtain ⟨hd, hnewDist, hforDist⟩ := @new_for (ls.drop (nlit + 257)) fun l hl => hls l (List.mem_of_mem_drop hl)
    rw [if_neg hover]
    exact ends_option hnewLit (ends_option hnewDist (ends_pure hs₅ ⟨_, _, hforLit, hforDist⟩))

theorem stored_ends {out : List UInt8} {s : Bits} (hs : s.Sound) : Ends 0 (stored out) (fun _ => True) s := by
  unfold stored
  refine ends_get (ends_bind_zero (skip_ends hs (Nat.mod_le s.n 8)) fun _ s₁ hs₁ _ _ => ?_)
  refine ends_bind_zero (ends_take_zero hs₁ (by norm_num)) fun n s₂ hs₂ _ _ => ?_
  refine ends_bind_zero (ends_take_zero hs₂ (by norm_num)) fun m s₃ hs₃ _ _ => ?_
  by_cases hbad : n ≠ (2 ^ 32 - 1 - m) &&& 0xffff
  · rw [if_pos hbad]
    exact ends_throw_bind _ _ _ _ _
  · rw [if_neg hbad]
    refine ends_foldlM hs₃ trivial fun out _ i _ s' hs' => ?_
    exact ends_bind_zero (ends_take_zero hs' (by norm_num)) fun v s₄ hs₄ _ _ => ends_pure hs₄ trivial

theorem fixed_ends {out : List UInt8} {s : Bits} (hs : s.Sound) : Ends 0 (fixed out) (fun _ => True) s := by
  obtain ⟨hl, hnewLit, hforLit⟩ := new_for fits_fixed.le
  obtain ⟨hd, hnewDist, hforDist⟩ := new_for fits_thirty.le
  exact ends_option hnewLit (ends_option hnewDist (ends_get (codes_ends hforLit hforDist hs (Nat.lt_succ_self _))))

theorem body_ends {kind : ℕ} {out : List UInt8} {s : Bits} (hs : s.Sound) :
    Ends 0 (body kind out) (fun _ => True) s := by
  unfold body
  split
  · exact stored_ends hs
  · exact fixed_ends hs
  · refine ends_bind_zero (dynamic_ends hs) fun r s₁ hs₁ _ hr => ?_
    obtain ⟨lit, dist, hlit, hdist⟩ := hr
    exact ends_get (codes_ends hlit hdist hs₁ (Nat.lt_succ_self _))
  · exact ends_throw _ _ _ _

/-- A block takes three bits at least. -/
theorem block_ends {out : List UInt8} {s : Bits} (hs : s.Sound) : Ends 3 (block out) (fun _ => True) s := by
  refine ends_bind (j := 0) (ends_take hs (by norm_num)) fun head s₁ hs₁ _ _ => ?_
  exact ends_bind_zero (body_ends hs₁) fun out' s₂ hs₂ _ _ => ends_pure hs₂ trivial

theorem blocks_ends {fuel : ℕ} {out : List UInt8} {s : Bits} (hs : s.Sound) (hfuel : s.left < fuel) :
    Ends 0 (blocks fuel out) (fun _ => True) s := by
  induction fuel generalizing out s with
  | zero => omega
  | succ fuel ih =>
    rw [blocks]
    refine Ends.mono (ends_bind (j := 0) (block_ends hs) fun r s₁ hs₁ hleft _ => ?_) (Nat.zero_le _) fun _ hv => hv
    by_cases hlast : r.2 = true
    · simp only [hlast, if_true]
      exact ends_pure hs₁ trivial
    · simp only [hlast]
      exact ih hs₁ (by omega)

end Ends

/-! ## Streams -/

theorem start_sound (data : List UInt8) : (⟨data, 0, 0, 0⟩ : Bits).Sound := ⟨by norm_num, by norm_num, Nat.zero_le _⟩

theorem rest_start (data : List UInt8) : (⟨data, 0, 0, 0⟩ : Bits).rest = ofBytesLittle data := rfl

theorem zlib_error {z : List UInt8} (h : ¬ Refused z) {e : Error}
    (hrun : blocks ((⟨z.drop 2, 0, 0, 0⟩ : Bits).left + 1) [] ⟨z.drop 2, 0, 0, 0⟩ = some (.error e)) :
    zlib z = some (.error e) := by
  unfold zlib
  rw [if_neg h]
  simp only [hrun]
  rfl

/-- The blocks are decoded, and the checksum compared. -/
theorem zlib_ok {z out : List UInt8} {bits : Bits} (h : ¬ Refused z)
    (hrun : blocks ((⟨z.drop 2, 0, 0, 0⟩ : Bits).left + 1) [] ⟨z.drop 2, 0, 0, 0⟩ = some (.ok (out, bits))) :
    zlib z = if want z bits ≠ some (adlerHigh out <<< 16 ||| adlerLow out) then
      some (.error (bad "a zlib stream fails its checksum")) else some (.ok out) := by
  unfold zlib
  rw [if_neg h]
  simp only [hrun]
  change ((liftM (sums out) >>= fun s => if want z bits ≠ some (s.2 <<< 16 ||| s.1) then _ else _ :
    Decoding (List UInt8))) = _
  rw [sums_eq]
  change (if want z bits ≠ some (adlerHigh out <<< 16 ||| adlerLow out) then _ else _ : Decoding (List UInt8)) = _
  split_ifs <;> rfl

/-- The decoder ends on any input. -/
theorem zlib_ends (z : List UInt8) : ∃ r, zlib z = some r := by
  by_cases h : Refused z
  · unfold zlib
    rw [if_pos h]
    exact ⟨_, rfl⟩
  · obtain ⟨r, hrun, -⟩ := @blocks_ends _ [] _ (start_sound (z.drop 2)) (Nat.lt_succ_self _)
    cases r with
    | error e => exact ⟨_, zlib_error h hrun⟩
    | ok v =>
      rw [zlib_ok h hrun]
      split_ifs <;> exact ⟨_, rfl⟩

theorem be32_read (n : ℕ) (hn : n < 2 ^ 32) : (be32 n).foldl (fun n b => 256 * n + b.toNat) 0 = n := by
  simp only [be32, List.foldl_cons, List.foldl_nil, UInt8.toNat_ofNat']
  omega

theorem adler32_eq (out : List UInt8) : adlerHigh out <<< 16 ||| adlerLow out = adler32 out ∧ adler32 out < 2 ^ 32 := by
  have hlow : adlerLow out < 65521 := Nat.mod_lt _ (by norm_num)
  have hhigh : adlerHigh out < 65521 := Nat.mod_lt _ (by norm_num)
  rw [← Nat.shiftLeft_add_eq_or_of_lt (show adlerLow out < 2 ^ 16 by omega), Nat.shiftLeft_eq, adler32]
  omega

theorem not_refused {cmf flg : UInt8} {rest : List UInt8} (hlen : 4 ≤ rest.length) (hcmf : cmf.toNat % 16 = 8)
    (hcheck : (256 * cmf.toNat + flg.toNat) % 31 = 0) (hdict : flg.toNat.testBit 5 = false) :
    ¬ Refused (cmf :: flg :: rest) := by
  have hmethod : cmf.toNat &&& 15 = 8 := by
    rw [show 15 = 2 ^ 4 - 1 from rfl, Nat.and_two_pow_sub_one_eq_mod]
    exact hcmf
  have hsum : cmf.toNat <<< 8 ||| flg.toNat = 256 * cmf.toNat + flg.toNat := by
    rw [← Nat.shiftLeft_add_eq_or_of_lt (show flg.toNat < 2 ^ 8 from flg.toNat_lt), Nat.shiftLeft_eq, Nat.mul_comm]
  have hflag : flg.toNat &&& 32 = 0 := by
    apply Nat.eq_of_testBit_eq
    intro i
    rw [show 32 = 2 ^ 5 from rfl, Nat.testBit_and, Nat.testBit_two_pow]
    by_cases hi : 5 = i
    · subst hi
      simp [hdict]
    · simp [hi]
  unfold Refused
  simp only [List.length_cons, List.getD_cons_zero, List.getD_cons_succ, hmethod, hsum, hcheck, hflag]
  omega

/-- What a zlib stream says is what comes out. -/
theorem zlib_reads {z out : List UInt8} (h : Zlib z out) : zlib z = some (.ok out) := by
  obtain ⟨cmf, flg, body, after, bits, spare, rfl, hcmf, hcheck, hdict, hbits, hspare, hblocks⟩ := h
  obtain ⟨hsum, hlt⟩ := adler32_eq out
  have hfour : 4 ≤ (body ++ (be32 (adler32 out) ++ after)).length := by
    simp only [be32, List.length_append, List.length_cons, List.length_nil]
    omega
  have hhead := not_refused hfour hcmf hcheck hdict
  have hrest : (⟨body ++ (be32 (adler32 out) ++ after), 0, 0, 0⟩ : Bits).rest =
      bits ++ (spare ++ ofBytesLittle (be32 (adler32 out) ++ after)) := by
    rw [rest_start, ofBytesLittle_append, hbits, List.append_assoc]
  have hleft := (⟨body ++ (be32 (adler32 out) ++ after), 0, 0, 0⟩ : Bits).length_rest
  have hwhole : (⟨body ++ (be32 (adler32 out) ++ after), 0, 0, 0⟩ : Bits).rest.length % 8 = 0 := by
    rw [rest_start, length_ofBytesLittle]
    omega
  rw [hrest, List.length_append] at hleft
  have hfuel : bits.length ≤ (⟨body ++ (be32 (adler32 out) ++ after), 0, 0, 0⟩ : Bits).left + 1 := by omega
  obtain ⟨s, hrun, hs, hdata, hs_rest⟩ := blocks_reads hblocks hfuel (start_sound _) hwhole _ hrest
  -- the checksum follows the byte in which the blocks end
  have hend : 2 + s.at_ - s.n / 8 = 2 + body.length := by
    have hlen := s.length_rest
    have hin := hs.inside
    rw [Bits.left, hs_rest, List.length_append, length_ofBytesLittle, hdata] at hlen
    simp only [List.length_append] at hlen
    rw [hdata] at hin
    simp only [List.length_append] at hin
    omega
  have hwant : want (cmf :: flg :: (body ++ (be32 (adler32 out) ++ after))) s = some (adler32 out) := by
    unfold want
    simp only [hend]
    have hslice := slice_append (cmf :: flg :: body) (be32 (adler32 out)) after (i := 2 + body.length)
      (j := 2 + body.length + 4) (by simp; omega) (by simp [be32]; omega)
    simp only [List.cons_append] at hslice
    rw [hslice, Option.map_some, be32_read _ hlt]
  rw [zlib_ok hhead hrun, hwant, hsum, if_neg (not_not.2 rfl)]

/-- On any bytes the decoder ends, and on a stream it gives what the stream says. The tables of any code lengths
are built, and a symbol is looked for without a read past an end; where the code words fit it is the one found
bit by bit, to the last bit. The checksum stays within 32 bits. -/
theorem inflates :
    (∀ z, ∃ r, zlib z = some r) ∧
    (∀ z out, Zlib z out → zlib z = some (.ok out)) ∧
    (∀ lens : List ℕ, (∀ l ∈ lens, l ≤ 15) → ∃ h, Huffman.new lens = some h ∧
      (∀ s, s.Sound → ∃ r, h.decode s = some r) ∧
      (Fits lens 15 → ∀ s, s.Sound →
        match lookup lens s.rest 15 0 with
        | some (v, r) => ∃ s', h.decode s = some (.ok (v, s')) ∧ s'.Sound ∧ s'.data = s.data ∧ s'.rest = r
        | none => Errs h.decode s)) ∧
    (∀ out, sums out = some (adlerLow out, adlerHigh out)) := by
  refine ⟨zlib_ends, fun z out h => zlib_reads h, fun lens hle => ?_, sums_eq⟩
  obtain ⟨h, hnew, hfor⟩ := new_for hle
  refine ⟨h, hnew, fun s hs => ?_, fun hfits s hs => Huffman.decode_eq_lookup hfor hfits hs⟩
  obtain ⟨r, hr, -⟩ := Huffman.decode_ends hfor hs
  exact ⟨r, hr⟩

/-- A byte and three more, copied from the one before. -/
theorem inflates_repeat : zlib [0x78, 0x01, 0x4B, 0x04, 0x02, 0x00, 0x03, 0xCE, 0x01, 0x85] =
    some (.ok [97, 97, 97, 97]) := by
  apply inflates.2.1
  have hstop : Coded fixedLit fixedDist (word fixedLit 256) [97, 97, 97, 97] [97, 97, 97, 97] :=
    .stop (by decide)
  have hcopy := @Coded.reference fixedLit fixedDist _ [97] _ 0 0 0 0 (by decide) (by decide) (by decide) (by decide)
    (by decide) (by decide) (by decide) hstop
  exact ⟨0x78, 0x01, [0x4B, 0x04, 0x02, 0x00], [], _, [false, false], by decide, by decide, by decide, by decide,
    by decide +kernel, by decide, .last (.fixed (.byte 97 (by decide +kernel) hcopy))⟩

end Chatlink.Media.Inflate
