import Chatlink.Lib.Codec

/-!
# Cyclic redundancy checks, the lowest bit first

A register is divided by a polynomial one bit at a time, the lowest bit first. A step is linear, and what is added
above the register only moves down until it is there, so a register that takes a message bit by bit, byte by byte
or word by word ends as one that holds the whole message from the start. Two messages that differ in no more bits
in a row than the polynomial has leave different registers.
-/
namespace Crc

open Codec

variable {poly w : ℕ}

/-- One bit of a division, the lowest first. -/
def step (poly c : ℕ) : ℕ := (c >>> 1) ^^^ (if c.testBit 0 then poly else 0)

/-- A message that a register takes byte by byte. -/
def bytes (poly c : ℕ) (bs : List UInt8) : ℕ := bs.foldl (fun c b => (step poly)^[8] (c ^^^ b.toNat)) c

/-! ## Linearity -/

theorem step_zero (poly : ℕ) : step poly 0 = 0 := by simp [step]

theorem step_xor (poly a b : ℕ) : step poly (a ^^^ b) = step poly a ^^^ step poly b := by
  apply Nat.eq_of_testBit_eq
  intro i
  simp only [step, Nat.testBit_xor, Nat.testBit_shiftRight]
  cases a.testBit 0 <;> cases b.testBit 0 <;> simp [Bool.xor_comm, Bool.xor_left_comm]

theorem iterate_zero (poly n : ℕ) : (step poly)^[n] 0 = 0 := Function.iterate_fixed (step_zero poly) n

theorem iterate_xor (poly n a b : ℕ) : (step poly)^[n] (a ^^^ b) = (step poly)^[n] a ^^^ (step poly)^[n] b := by
  induction n generalizing a b with
  | zero => rfl
  | succ n ih => rw [Function.iterate_succ_apply, Function.iterate_succ_apply, Function.iterate_succ_apply, step_xor, ih]

/-- What stands above the bits that are divided moves down. -/
theorem iterate_shiftLeft (poly n v : ℕ) : (step poly)^[n] (v <<< n) = v := by
  induction n with
  | zero => rfl
  | succ n ih =>
    have hlow : (v <<< (n + 1)).testBit 0 = false := by simp
    have hstep : step poly (v <<< (n + 1)) = v <<< n := by
      rw [step, hlow, Nat.shiftLeft_add, Nat.shiftLeft_shiftRight]
      exact Nat.xor_zero _
    rw [Function.iterate_succ_apply, hstep, ih]

/-! ## Messages -/

theorem testBit_ofLe_cons (b : UInt8) (bs : List UInt8) (i : ℕ) :
    (ofLe (b :: bs)).testBit i = if i < 8 then b.toNat.testBit i else (ofLe bs).testBit (i - 8) := by
  rw [ofLe, add_comm]
  exact Nat.testBit_two_pow_mul_add _ b.toNat_lt i

theorem ofLe_cons (b : UInt8) (bs : List UInt8) : ofLe (b :: bs) = b.toNat ^^^ ofLe bs <<< 8 := by
  apply Nat.eq_of_testBit_eq
  intro i
  rw [testBit_ofLe_cons, Nat.testBit_xor, Nat.testBit_shiftLeft]
  by_cases hi : i < 8
  · simp [hi, Nat.not_le.mpr hi]
  · have hb : b.toNat.testBit i = false :=
      Nat.testBit_lt_two_pow (b.toNat_lt.trans_le (Nat.pow_le_pow_right (by omega) (Nat.not_lt.mp hi)))
    simp [hi, hb, Nat.not_lt.mp hi]

/-- Byte by byte, a register ends as one that holds the message from the start. -/
theorem bytes_eq (poly c : ℕ) (bs : List UInt8) : bytes poly c bs = (step poly)^[8 * bs.length] (c ^^^ ofLe bs) := by
  induction bs generalizing c with
  | nil => simp [bytes, ofLe]
  | cons b bs ih =>
    have hfirst : (step poly)^[8] (c ^^^ ofLe (b :: bs)) = (step poly)^[8] (c ^^^ b.toNat) ^^^ ofLe bs := by
      rw [ofLe_cons, ← Nat.xor_assoc, iterate_xor, iterate_shiftLeft]
    rw [bytes, List.foldl_cons, ← bytes, ih, List.length_cons, Nat.mul_succ, Function.iterate_add_apply, hfirst]

theorem bytes_append (poly c : ℕ) (as bs : List UInt8) : bytes poly c (as ++ bs) = bytes poly (bytes poly c as) bs :=
  List.foldl_append

/-! ## Bursts -/

/-- A register that is not zero stays so, where the polynomial has the highest bit. -/
theorem step_pos {c : ℕ} (hpoly : poly < 2 ^ w) (htop : poly.testBit (w - 1) = true) (hc : 0 < c) (hcw : c < 2 ^ w) :
    0 < step poly c ∧ step poly c < 2 ^ w := by
  have hhalf : c >>> 1 = c / 2 := Nat.shiftRight_one c
  unfold step
  by_cases hodd : c.testBit 0 = true
  · rw [if_pos hodd]
    refine ⟨Nat.pos_of_ne_zero fun h => ?_, Nat.xor_lt_two_pow (by omega) hpoly⟩
    have heq : c >>> 1 = poly := Nat.xor_eq_zero_iff.mp h
    have hbit : (c >>> 1).testBit (w - 1) = true := heq ▸ htop
    have hle := Nat.ge_two_pow_of_testBit hbit
    have hw : w ≠ 0 := by rintro rfl; omega
    have hpow : 2 ^ w = 2 * 2 ^ (w - 1) := by rw [← pow_succ', Nat.sub_add_cancel (Nat.pos_of_ne_zero hw)]
    omega
  · rw [if_neg hodd, Nat.xor_zero]
    rw [Nat.testBit_zero, decide_eq_true_eq] at hodd
    omega

theorem iterate_pos {c : ℕ} (n : ℕ) (hpoly : poly < 2 ^ w) (htop : poly.testBit (w - 1) = true) (hc : 0 < c)
    (hcw : c < 2 ^ w) : 0 < (step poly)^[n] c := by
  induction n generalizing c with
  | zero => exact hc
  | succ n ih =>
    obtain ⟨hpos, hlt⟩ := step_pos hpoly htop hc hcw
    rw [Function.iterate_succ_apply]
    exact ih hpos hlt

/-- The bits of a string, the lowest bit of a byte first. -/
def bit (bs : List UInt8) (i : ℕ) : Bool := (bs.getD (i / 8) 0).toNat.testBit (i % 8)

theorem testBit_ofLe (bs : List UInt8) (i : ℕ) : (ofLe bs).testBit i = bit bs i := by
  induction bs generalizing i with
  | nil => simp [ofLe, bit]
  | cons b bs ih =>
    rw [testBit_ofLe_cons]
    by_cases hi : i < 8
    · rw [if_pos hi, bit, Nat.div_eq_of_lt hi, Nat.mod_eq_of_lt hi, List.getD_cons_zero]
    · have hdiv : i / 8 = (i - 8) / 8 + 1 := by omega
      have hmod : (i - 8) % 8 = i % 8 := by omega
      rw [if_neg hi, ih, bit, bit, hdiv, hmod, List.getD_cons_succ]

theorem ofLe_inj {bs bs' : List UInt8} (hlen : bs.length = bs'.length) (h : ofLe bs = ofLe bs') : bs = bs' := by
  have hbs := le_ofLe (le_refl bs.length)
  have hbs' := le_ofLe (le_refl bs'.length)
  rw [Nat.sub_self, List.replicate_zero, List.append_nil] at hbs hbs'
  rw [← hbs, ← hbs', hlen, h]

/-- Two different strings of one length that differ in none but `w` bits in a row. -/
structure Burst (w : ℕ) (bs bs' : List UInt8) : Prop where
  length : bs.length = bs'.length
  ne : bs ≠ bs'
  within : ∃ k, ∀ i, bit bs i ≠ bit bs' i → k ≤ i ∧ i < k + w

/-- The difference is a number of `w` bits, moved up. -/
theorem Burst.xor {bs bs' : List UInt8} (h : Burst w bs bs') :
    ∃ k e, 0 < e ∧ e < 2 ^ w ∧ ofLe bs ^^^ ofLe bs' = e <<< k := by
  obtain ⟨k, hk⟩ := h.within
  have hbit : ∀ i, (ofLe bs ^^^ ofLe bs').testBit i = true → k ≤ i ∧ i < k + w := by
    intro i hi
    rw [Nat.testBit_xor, testBit_ofLe, testBit_ofLe] at hi
    exact hk i (by simpa using hi)
  have hne : ofLe bs ^^^ ofLe bs' ≠ 0 := fun h0 => h.ne (ofLe_inj h.length (Nat.xor_eq_zero_iff.mp h0))
  have heq : ofLe bs ^^^ ofLe bs' = (ofLe bs ^^^ ofLe bs') >>> k <<< k := by
    apply Nat.eq_of_testBit_eq
    intro i
    rw [Nat.testBit_shiftLeft, Nat.testBit_shiftRight]
    by_cases hi : k ≤ i
    · simp [hi]
    · have hlow := mt (hbit i) fun hin => hi hin.1
      simp [hi, Bool.eq_false_iff.mpr hlow]
  refine ⟨k, (ofLe bs ^^^ ofLe bs') >>> k, Nat.pos_of_ne_zero fun h0 => hne ?_, ?_, heq⟩
  · rw [heq, h0, Nat.zero_shiftLeft]
  · refine Nat.lt_pow_two_of_testBit _ fun i hi => ?_
    rw [Nat.testBit_shiftRight]
    exact Bool.eq_false_iff.mpr (mt (hbit (k + i)) fun hin => by omega)

theorem bytes_ne {bs bs' : List UInt8} (c : ℕ) (hpoly : poly < 2 ^ w) (htop : poly.testBit (w - 1) = true)
    (h : Burst w bs bs') : bytes poly c bs ≠ bytes poly c bs' := by
  obtain ⟨k, e, hpos, hlt, hxor⟩ := h.xor
  -- The difference is in the strings, so it has come down to the register by their end.
  have hk : k ≤ 8 * bs.length := by
    have hsize : ofLe bs ^^^ ofLe bs' < 2 ^ (8 * bs.length) := by
      have hpow : 256 ^ bs.length = 2 ^ (8 * bs.length) := by rw [pow_mul]; norm_num
      refine Nat.xor_lt_two_pow (hpow ▸ ofLe_lt bs) ?_
      have hlt' := ofLe_lt bs'
      rwa [← h.length, hpow] at hlt'
    rw [hxor, Nat.shiftLeft_eq] at hsize
    have hle : 2 ^ k ≤ e * 2 ^ k := Nat.le_mul_of_pos_left _ hpos
    exact (Nat.pow_lt_pow_iff_right (by norm_num)).mp (hle.trans_lt hsize) |>.le
  have hdiff : bytes poly c bs ^^^ bytes poly c bs' = (step poly)^[8 * bs.length - k] e := by
    have hcancel : (c ^^^ ofLe bs) ^^^ (c ^^^ ofLe bs') = e <<< k := by
      rw [← hxor, Nat.xor_comm c, Nat.xor_assoc, Nat.xor_xor_cancel_left]
    rw [bytes_eq, bytes_eq, ← h.length, ← iterate_xor, hcancel, ← Nat.sub_add_cancel hk, Function.iterate_add_apply,
      iterate_shiftLeft, Nat.add_sub_cancel]
  intro heq
  rw [heq, Nat.xor_self] at hdiff
  exact (iterate_pos _ hpoly htop hpos hlt).ne hdiff

end Crc
