import Chatlink.Lib.Crc
import Chatlink.Wpk.Written

/-!
# One checksum on every processor

With SSE4.2 eight bytes are folded into the register at once, without it single bits. The instruction divides by the
same polynomial, so the two agree. A change within 32 bits in a row, which may go over the ends of bytes and of
chunks, is seen by `verify`.
-/
namespace Chatlink.Wpk

open Codec Files

/-- The polynomial of CRC32C, reflected. -/
def CASTAGNOLI : ℕ := 0x82F63B78

/-! ## With the instruction -/

/-- One bit of the instruction's division, on a register of 64 bits. -/
def divideStep (c : UInt64) : UInt64 := (c >>> 1) ^^^ (if c &&& 1 = 1 then 0x82F63B78 else 0)

/-- `_mm_crc32_u64`, which takes the lower half of its register. -/
def mmCrc32U64 (crc v : UInt64) : UInt64 := divideStep^[64] ((crc &&& 0xFFFFFFFF) ^^^ v)

/-- `_mm_crc32_u8`. -/
def mmCrc32U8 (crc : UInt32) (v : UInt8) : UInt32 := (divideStep^[8] (crc.toUInt64 ^^^ v.toUInt64)).toUInt32

/-- The whole chunks of `n` bytes. -/
def chunksExact (n : ℕ) (bytes : List UInt8) : List (List UInt8) :=
  (List.range (bytes.length / n)).map fun i => slice bytes (i * n) n

/-- What no whole chunk holds. -/
def remainder (n : ℕ) (bytes : List UInt8) : List UInt8 := bytes.drop (bytes.length / n * n)

def crc32cSse42 (crc : UInt32) (bytes : List UInt8) : UInt32 :=
  let wide := (chunksExact 8 bytes).foldl (fun c w => mmCrc32U64 c (UInt64.ofNat (ofLe w))) (~~~ crc).toUInt64
  ~~~ (remainder 8 bytes).foldl mmCrc32U8 wide.toUInt32

/-- The checksum on a processor that has the instruction or has it not. -/
def crc32cOn (sse42 : Bool) (crc : UInt32) (bytes : List UInt8) : UInt32 :=
  if sse42 then crc32cSse42 crc bytes else crc32c crc bytes

/-! ## One division -/

theorem toNat_crcBit (c : UInt32) : (crcBit c).toNat = Crc.step CASTAGNOLI c.toNat := by
  have hodd : (c &&& 1 = 1) ↔ c.toNat.testBit 0 = true := by
    rw [← UInt32.toNat_inj, UInt32.toNat_and, UInt32.toNat_one, Nat.and_one_is_mod, Nat.testBit_zero, decide_eq_true_eq]
  rw [crcBit, Crc.step, UInt32.toNat_xor, UInt32.toNat_shiftRight]
  by_cases h : c &&& 1 = 1
  · rw [if_pos h, if_pos (hodd.mp h)]
    rfl
  · rw [if_neg h, if_neg (mt hodd.mpr h)]
    rfl

theorem toNat_divideStep (c : UInt64) : (divideStep c).toNat = Crc.step CASTAGNOLI c.toNat := by
  have hodd : (c &&& 1 = 1) ↔ c.toNat.testBit 0 = true := by
    rw [← UInt64.toNat_inj, UInt64.toNat_and, UInt64.toNat_one, Nat.and_one_is_mod, Nat.testBit_zero, decide_eq_true_eq]
  rw [divideStep, Crc.step, UInt64.toNat_xor, UInt64.toNat_shiftRight]
  by_cases h : c &&& 1 = 1
  · rw [if_pos h, if_pos (hodd.mp h)]
    rfl
  · rw [if_neg h, if_neg (mt hodd.mpr h)]
    rfl

theorem toNat_iterate_divideStep (n : ℕ) (c : UInt64) :
    (divideStep^[n] c).toNat = (Crc.step CASTAGNOLI)^[n] c.toNat := by
  induction n generalizing c with
  | zero => rfl
  | succ n ih => rw [Function.iterate_succ_apply, Function.iterate_succ_apply, ih, toNat_divideStep]

theorem toNat_crcByte (c : UInt32) (b : UInt8) :
    (crcByte c b).toNat = (Crc.step CASTAGNOLI)^[8] (c.toNat ^^^ b.toNat) := by
  have hfold : ∀ n c, ((List.range n).foldl (fun c _ => crcBit c) c).toNat = (Crc.step CASTAGNOLI)^[n] c.toNat := by
    intro n c
    induction n with
    | zero => rfl
    | succ n ih =>
      rw [List.range_succ, List.foldl_append, List.foldl_cons, List.foldl_nil, toNat_crcBit, ih,
        Function.iterate_succ_apply']
  rw [crcByte, hfold, UInt32.toNat_xor, UInt8.toNat_toUInt32]

theorem toNat_foldl_crcByte (c : UInt32) (bs : List UInt8) :
    (bs.foldl crcByte c).toNat = Crc.bytes CASTAGNOLI c.toNat bs := by
  induction bs generalizing c with
  | nil => rfl
  | cons b bs ih => rw [List.foldl_cons, ih, toNat_crcByte]; rfl

theorem mmCrc32U8_eq (c : UInt32) (b : UInt8) : mmCrc32U8 c b = crcByte c b := by
  apply UInt32.toNat_inj.mp
  have hnat : (divideStep^[8] (c.toUInt64 ^^^ b.toUInt64)).toNat = (crcByte c b).toNat := by
    rw [toNat_iterate_divideStep, UInt64.toNat_xor, UInt32.toNat_toUInt64, UInt8.toNat_toUInt64, toNat_crcByte]
  rw [mmCrc32U8, UInt64.toNat_toUInt32, hnat, Nat.mod_eq_of_lt (crcByte c b).toNat_lt]

/-- Eight bytes at once leave the register that they leave one by one. -/
theorem mmCrc32U64_eq (c : UInt32) {w : List UInt8} (hw : w.length = 8) :
    mmCrc32U64 c.toUInt64 (UInt64.ofNat (ofLe w)) = (w.foldl crcByte c).toUInt64 := by
  have hlt : ofLe w < 2 ^ 64 := by
    have hofLe := ofLe_lt w
    rwa [hw] at hofLe
  have hlow : c.toUInt64 &&& 0xFFFFFFFF = c.toUInt64 := by
    apply UInt64.toNat_inj.mp
    have hmask : (0xFFFFFFFF : UInt64).toNat = 2 ^ 32 - 1 := rfl
    rw [UInt64.toNat_and, UInt32.toNat_toUInt64, hmask, Nat.and_two_pow_sub_one_eq_mod, Nat.mod_eq_of_lt c.toNat_lt]
  apply UInt64.toNat_inj.mp
  rw [mmCrc32U64, hlow, toNat_iterate_divideStep, UInt64.toNat_xor, UInt32.toNat_toUInt64, UInt64.toNat_ofNat_of_lt' hlt,
    UInt32.toNat_toUInt64, toNat_foldl_crcByte, Crc.bytes_eq, hw]

theorem foldl_mmCrc32U64 (c : UInt32) {ws : List (List UInt8)} (hws : ∀ w ∈ ws, w.length = 8) :
    ws.foldl (fun c w => mmCrc32U64 c (UInt64.ofNat (ofLe w))) c.toUInt64 = (ws.flatten.foldl crcByte c).toUInt64 := by
  induction ws generalizing c with
  | nil => rfl
  | cons w ws ih =>
    rw [List.foldl_cons, mmCrc32U64_eq c (hws w (by simp)), ih _ fun w' hw' => hws w' (by simp [hw']), List.flatten_cons,
      List.foldl_append]

theorem length_of_mem_chunksExact {n : ℕ} {bytes w : List UInt8} (hw : w ∈ chunksExact n bytes) : w.length = n := by
  obtain ⟨i, hi, rfl⟩ := List.mem_map.mp hw
  have hle : (i + 1) * n ≤ bytes.length :=
    (Nat.mul_le_mul_right n (List.mem_range.mp hi)).trans (Nat.div_mul_le_self _ _)
  rw [slice, List.length_take, List.length_drop]
  have hexpand : (i + 1) * n = i * n + n := Nat.succ_mul i n
  omega

theorem flatten_chunksExact (n : ℕ) (bytes : List UInt8) :
    (chunksExact n bytes).flatten ++ remainder n bytes = bytes := by
  have htake : ∀ k, ((List.range k).map fun i => slice bytes (i * n) n).flatten = slice bytes 0 (k * n) := by
    intro k
    induction k with
    | zero => rw [Nat.zero_mul, slice_zero]; rfl
    | succ k ih =>
      rw [List.range_succ, List.map_append, List.flatten_append, ih, Nat.succ_mul, slice_add, Nat.zero_add]
      simp
  rw [chunksExact, htake, slice, List.drop_zero, remainder, List.take_append_drop]

theorem crc32cSse42_eq (crc : UInt32) (bytes : List UInt8) : crc32cSse42 crc bytes = crc32c crc bytes := by
  have hbyte : mmCrc32U8 = crcByte := funext₂ mmCrc32U8_eq
  rw [crc32cSse42, foldl_mmCrc32U64 _ fun w => length_of_mem_chunksExact, hbyte, UInt32.toUInt32_toUInt64,
    ← List.foldl_append, flatten_chunksExact, crc32c]

theorem crc32cOn_eq (sse42 : Bool) (crc : UInt32) (bytes : List UInt8) : crc32cOn sse42 crc bytes = crc32c crc bytes := by
  cases sse42
  · rfl
  · exact crc32cSse42_eq crc bytes

/-! ## Changes that are seen -/

theorem crc32c_ne (crc : UInt32) {bs bs' : List UInt8} (h : Crc.Burst 32 bs bs') : crc32c crc bs ≠ crc32c crc bs' := by
  intro heq
  have hpoly : CASTAGNOLI < 2 ^ 32 := by decide
  have htop : CASTAGNOLI.testBit (32 - 1) = true := by decide
  refine Crc.bytes_ne (~~~ crc).toNat hpoly htop h ?_
  rw [← toNat_foldl_crcByte, ← toNat_foldl_crcByte, UInt32.not_inj.mp heq]

theorem readExactAt_ok {file bs : List UInt8} {n i : ℕ} (h : readExactAt file n i = .ok bs) : bs = slice file i n := by
  unfold readExactAt at h
  split_ifs at h with hn
  · rw [hn, slice_zero, ← Except.ok.inj h]
  · exact (Except.ok.inj h).symm

/-- What has been read is what stands there, and its checksum is the one found. -/
theorem crcOf_ok {file : List UInt8} {fuel i len : ℕ} {crc c : UInt32} (hfuel : len < fuel)
    (h : crcOf file fuel i len crc = .ok c) : c = crc32c crc (slice file i len) := by
  induction fuel generalizing i len crc with
  | zero => omega
  | succ fuel ih =>
    have hCHUNK : 0 < CHUNK := by decide
    unfold crcOf at h
    by_cases hlen : len = 0
    · rw [if_pos hlen] at h
      rw [hlen, slice_zero, ← Except.ok.inj h]
      simp [crc32c]
    · rw [if_neg hlen] at h
      obtain ⟨part, hpart, hrest⟩ := Lists.bind_eq_ok h
      rw [readExactAt_ok hpart] at hrest
      rw [ih (by omega) hrest, crc32c_append, ← slice_split]

theorem verifyOne_ok {file : List UInt8} {t : Tensor} (h : verifyOne file t = .ok ()) :
    t.crc = crc32c 0 (slice file (ALIGN + t.offset) t.len) := by
  obtain ⟨c, hc, hsame⟩ := Lists.bind_eq_ok h
  rw [← crcOf_ok (Nat.lt_succ_self _) hc]
  by_contra hne
  rw [if_pos (Ne.symm hne)] at hsame
  cases hsame

theorem verify_ok {file : List UInt8} {ts : List Tensor} (h : verify file ts = .ok ()) {t : Tensor} (ht : t ∈ ts) :
    verifyOne file t = .ok () := by
  induction ts with
  | nil => cases ht
  | cons t' ts ih =>
    rw [verify_cons] at h
    obtain ⟨_, hfirst, hrest⟩ := Lists.bind_eq_ok h
    rcases List.mem_cons.mp ht with rfl | ht
    · exact hfirst
    · exact ih hrest ht

/-- The checksum is one function on every processor, goes on where it stopped, and a tensor whose bytes change within
32 bits in a row, the lowest bit of a byte first, is refused. -/
theorem one_checksum :
    (∀ sse42 crc bytes, crc32cOn sse42 crc bytes = crc32c crc bytes) ∧
    (∀ sse42 a b, crc32cOn sse42 (crc32cOn sse42 0 a) b = crc32cOn sse42 0 (a ++ b)) ∧
    ∀ file file' ts t, verify file ts = .ok () → t ∈ ts →
      Crc.Burst 32 (slice file (ALIGN + t.offset) t.len) (slice file' (ALIGN + t.offset) t.len) →
      verify file' ts ≠ .ok () := by
  refine ⟨crc32cOn_eq, fun sse42 a b => ?_, fun file file' ts t hok ht hburst hok' => ?_⟩
  · rw [crc32cOn_eq, crc32cOn_eq, crc32cOn_eq, crc32c_append]
  · have hcrc := verifyOne_ok (verify_ok hok ht)
    have hcrc' := verifyOne_ok (verify_ok hok' ht)
    exact crc32c_ne 0 hburst (hcrc.symm.trans hcrc')

/-- A tensor of the one byte 1, at the start of the data. -/
def oneByte : Tensor := ⟨"t", .u8, [1], 0, 1, crc32c 0 [1]⟩

theorem slice_oneByte (b : UInt8) :
    slice (List.replicate ALIGN 0 ++ [b]) (ALIGN + oneByte.offset) oneByte.len = [b] := by
  have hdrop : (List.replicate ALIGN 0 ++ [b]).drop ALIGN = [b] := List.drop_left' List.length_replicate
  rw [slice, oneByte, Nat.add_zero, hdrop, List.take_of_length_le (by simp)]

/-- The byte 1 read as 3. -/
theorem flipped_bit_is_seen : verify (List.replicate ALIGN 0 ++ [3]) [oneByte] ≠ .ok () := by
  have hlength : (List.replicate ALIGN 0 ++ [1] : List UInt8).length = 4097 := by
    rw [List.length_append, List.length_replicate]
    rfl
  have hok : verify (List.replicate ALIGN 0 ++ [1]) [oneByte] = .ok () := by
    have hone : verifyOne (List.replicate ALIGN 0 ++ [1]) oneByte = .ok () := by
      have hin : ALIGN + oneByte.offset + oneByte.len ≤ 4097 := by decide
      have hmax : 4097 ≤ MAX_FILE := by decide
      rw [verifyOne, crcOf_eq 0 (Nat.lt_succ_self _) (.inr (hlength ▸ hin)) (hlength ▸ hmax), slice_oneByte]
      rfl
    rw [verify_cons, hone]
    rfl
  refine one_checksum.2.2 (List.replicate ALIGN 0 ++ [1]) _ [oneByte] oneByte hok (List.mem_singleton_self _) ?_
  rw [slice_oneByte, slice_oneByte]
  refine ⟨rfl, by decide, 0, fun i hi => ⟨Nat.zero_le i, ?_⟩⟩
  by_contra hfar
  have hbyte : i / 8 = i / 8 - 1 + 1 := by omega
  exact hi (by rw [Crc.bit, Crc.bit, hbyte, List.getD_cons_succ, List.getD_cons_succ])

end Chatlink.Wpk
