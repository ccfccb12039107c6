import Mathlib

/-!
# Bytes as bits

Numbers of a few bits are packed into bytes one after the other, the most significant bit first; the last
byte may have bits to spare. A number of the packing is found again bit by bit. Other streams put the least
significant bit first; their numbers are read off a list of bits.
-/
namespace BitLists

variable {α β : Type*}

/-- The `w` low bits of a number, the most significant first. -/
def big (w n : ℕ) : List Bool := (List.range w).map fun k => n.testBit (w - 1 - k)

@[simp] theorem length_big (w n : ℕ) : (big w n).length = w := by simp [big]

theorem getElem?_big {w k : ℕ} (hk : k < w) (n : ℕ) : (big w n)[k]? = some (n.testBit (w - 1 - k)) := by
  simp [big, hk]

/-- The bits of some bytes. -/
def ofBytes (bs : List UInt8) : List Bool := bs.flatMap fun b => big 8 b.toNat

theorem length_flatMap_of_length {f : α → List β} {d : ℕ} (hf : ∀ a, (f a).length = d) (l : List α) :
    (l.flatMap f).length = d * l.length := by
  induction l with
  | nil => simp
  | cons a l ih =>
    rw [List.flatMap_cons, List.length_append, ih, hf, List.length_cons]
    ring

theorem length_ofBytes (bs : List UInt8) : (ofBytes bs).length = 8 * bs.length :=
  length_flatMap_of_length (fun _ => length_big 8 _) bs

/-- Pieces of one length, end to end: the `k`th element of the `i`th piece. -/
theorem getElem?_flatMap_of_length {f : α → List β} {d : ℕ} {l : List α} (hf : ∀ a ∈ l, (f a).length = d)
    (i : ℕ) {k : ℕ} (hk : k < d) : (l.flatMap f)[d * i + k]? = l[i]?.bind fun a => (f a)[k]? := by
  induction l generalizing i with
  | nil => simp
  | cons a l ih =>
    have ha : (f a).length = d := hf a (by simp)
    rw [List.flatMap_cons]
    cases i with
    | zero => simp [List.getElem?_append, ha, hk]
    | succ i =>
      have hle : (f a).length ≤ d * (i + 1) + k := by
        rw [ha, Nat.mul_succ]
        omega
      have hsub : d * (i + 1) + k - d = d * i + k := by
        rw [Nat.mul_succ]
        omega
      rw [List.getElem?_append_right hle, ha, hsub, List.getElem?_cons_succ]
      exact ih (fun b hb => hf b (by simp [hb])) i

/-! ## Packed numbers -/

/-- Bytes that hold the numbers of a list, `d` bits each, and less than a byte of anything after them. -/
def Packs (d : ℕ) (samples : List ℕ) (bytes : List UInt8) : Prop :=
  ∃ spare, spare.length < 8 ∧ ofBytes bytes = samples.flatMap (big d) ++ spare

instance (d : ℕ) (samples : List ℕ) (bytes : List UInt8) : Decidable (Packs d samples bytes) :=
  decidable_of_iff ((ofBytes bytes).take (d * samples.length) = samples.flatMap (big d) ∧
      8 * bytes.length < d * samples.length + 8) (by
    have hlen := length_flatMap_of_length (length_big d) samples
    have hbytes := length_ofBytes bytes
    constructor
    · rintro ⟨htake, hlt⟩
      refine ⟨(ofBytes bytes).drop (d * samples.length), ?_, ?_⟩
      · rw [List.length_drop, hbytes]
        omega
      · rw [← htake, List.take_append_drop]
    · rintro ⟨spare, hspare, heq⟩
      constructor
      · rw [heq, ← hlen, List.take_left]
      · rw [← hbytes, heq, List.length_append, hlen]
        omega)

variable {d : ℕ} {samples : List ℕ} {bytes : List UInt8}

theorem Packs.length (h : Packs d samples bytes) : bytes.length = (d * samples.length + 7) / 8 := by
  obtain ⟨spare, hspare, heq⟩ := h
  have hlen : 8 * bytes.length = d * samples.length + spare.length := by
    rw [← length_ofBytes, heq, List.length_append, length_flatMap_of_length (length_big d)]
  omega

/-- Bit `k` of the `i`th number stands where its place among the bits says. -/
theorem Packs.testBit (h : Packs d samples bytes) {i v : ℕ} (hv : samples[i]? = some v) {k : ℕ} (hk : k < d) :
    ∃ b, bytes[(d * i + k) / 8]? = some b ∧
      b.toNat.testBit (7 - (d * i + k) % 8) = v.testBit (d - 1 - k) := by
  obtain ⟨spare, -, heq⟩ := h
  have hsample : (samples.flatMap (big d))[d * i + k]? = some (v.testBit (d - 1 - k)) := by
    rw [getElem?_flatMap_of_length (fun v _ => length_big d v) i hk, hv]
    exact getElem?_big hk v
  have hbits : (ofBytes bytes)[d * i + k]? = some (v.testBit (d - 1 - k)) := by
    rw [heq, List.getElem?_append_left (List.getElem?_eq_some_iff.1 hsample).1, hsample]
  have hm : (d * i + k) % 8 < 8 := Nat.mod_lt _ (by norm_num)
  rw [← Nat.div_add_mod (d * i + k) 8, ofBytes,
    getElem?_flatMap_of_length (fun b _ => length_big 8 b.toNat) _ hm] at hbits
  obtain ⟨b, hb, hbit⟩ := Option.bind_eq_some_iff.1 hbits
  rw [getElem?_big hm, Option.some_inj] at hbit
  exact ⟨b, hb, by simpa using hbit⟩

/-- A number that lies within one byte. -/
theorem Packs.within (h : Packs d samples bytes) (hd : d ∣ 8) {i v : ℕ} (hv : samples[i]? = some v)
    (hlt : v < 2 ^ d) : ∃ b, bytes[d * i / 8]? = some b ∧
      (b.toNat >>> (8 - d - d * i % 8)) &&& (2 ^ d - 1) = v := by
  have hpos : 0 < d := Nat.pos_of_dvd_of_pos hd (by norm_num)
  -- a number never crosses into the next byte
  have hroom : d * i % 8 + d ≤ 8 := by
    obtain ⟨e, he⟩ := hd
    have he' : 0 < e := by
      rcases Nat.eq_zero_or_pos e with rfl | he'
      · omega
      · exact he'
    rw [he, Nat.mul_mod_mul_left]
    have := Nat.mod_lt i he'
    nlinarith
  have hsame : ∀ k < d, (d * i + k) / 8 = d * i / 8 ∧ (d * i + k) % 8 = d * i % 8 + k := by
    intro k hk
    omega
  obtain ⟨b, hb, -⟩ := h.testBit hv (k := 0) hpos
  rw [Nat.add_zero] at hb
  refine ⟨b, hb, Nat.eq_of_testBit_eq fun j => ?_⟩
  rw [Nat.testBit_and, Nat.testBit_shiftRight, Nat.testBit_two_pow_sub_one]
  rcases lt_or_ge j d with hj | hj
  · obtain ⟨b', hb', hbit⟩ := h.testBit hv (k := d - 1 - j) (by omega)
    obtain ⟨hdiv, hmod⟩ := hsame (d - 1 - j) (by omega)
    rw [hdiv, hb, Option.some_inj] at hb'
    subst hb'
    have hplace : 7 - (d * i % 8 + (d - 1 - j)) = 8 - d - d * i % 8 + j := by omega
    have hback : d - 1 - (d - 1 - j) = j := by omega
    rw [hmod, hplace, hback] at hbit
    simp [hbit, hj]
  · have hzero : v.testBit j = false :=
      Nat.testBit_lt_two_pow (lt_of_lt_of_le hlt (Nat.pow_le_pow_right (by norm_num) hj))
    simp [hzero, Nat.not_lt.2 hj]

/-- The high byte of a number of two bytes. -/
theorem Packs.high (h : Packs 16 samples bytes) {i v : ℕ} (hv : samples[i]? = some v) (hlt : v < 2 ^ 16) :
    ∃ b, bytes[2 * i]? = some b ∧ b.toNat = v / 2 ^ 8 := by
  obtain ⟨b, hb, -⟩ := h.testBit hv (k := 0) (by norm_num)
  have hdiv : ∀ k < 8, (16 * i + k) / 8 = 2 * i ∧ (16 * i + k) % 8 = k := by
    intro k hk
    omega
  rw [(hdiv 0 (by norm_num)).1] at hb
  refine ⟨b, hb, Nat.eq_of_testBit_eq fun j => ?_⟩
  rw [Nat.testBit_div_two_pow]
  rcases lt_or_ge j 8 with hj | hj
  · obtain ⟨b', hb', hbit⟩ := h.testBit hv (k := 7 - j) (by omega)
    obtain ⟨hd, hm⟩ := hdiv (7 - j) (by omega)
    rw [hd, hb, Option.some_inj] at hb'
    subst hb'
    have hplace : 7 - (7 - j) = j := by omega
    have hback : 16 - 1 - (7 - j) = j + 8 := by omega
    rw [hm, hplace, hback] at hbit
    exact hbit
  · have hb8 : b.toNat.testBit j = false :=
      Nat.testBit_lt_two_pow (lt_of_lt_of_le b.toNat_lt (Nat.pow_le_pow_right (by norm_num) hj))
    have hv8 : v.testBit (j + 8) = false :=
      Nat.testBit_lt_two_pow (lt_of_lt_of_le hlt (Nat.pow_le_pow_right (by norm_num) (by omega)))
    rw [hb8, hv8]

/-! ## The least significant bit first -/

/-- The `w` low bits of a number, the least significant first. -/
def little (w n : ℕ) : List Bool := (List.range w).map n.testBit

/-- The number whose bits these are, the least significant first. -/
def toNat : List Bool → ℕ
  | [] => 0
  | b :: bs => b.toNat + 2 * toNat bs

/-- The bits of some bytes. -/
def ofBytesLittle (bs : List UInt8) : List Bool := bs.flatMap fun b => little 8 b.toNat

@[simp] theorem length_little (w n : ℕ) : (little w n).length = w := by simp [little]

theorem length_ofBytesLittle (bs : List UInt8) : (ofBytesLittle bs).length = 8 * bs.length :=
  length_flatMap_of_length (fun _ => length_little 8 _) bs

theorem ofBytesLittle_append (xs ys : List UInt8) :
    ofBytesLittle (xs ++ ys) = ofBytesLittle xs ++ ofBytesLittle ys := List.flatMap_append

theorem little_congr {w m n : ℕ} (h : ∀ i < w, m.testBit i = n.testBit i) : little w m = little w n := by
  apply List.map_congr_left
  intro i hi
  exact h i (List.mem_range.1 hi)

/-- A number's low bits, and then the others. -/
theorem little_add (k m n : ℕ) : little (k + m) n = little k n ++ little m (n >>> k) := by
  simp only [little, List.range_add, List.map_append, List.map_map]
  congr 1
  apply List.map_congr_left
  intro i _
  rw [Function.comp_apply, Nat.testBit_shiftRight]

theorem testBit_toNat (bs : List Bool) (i : ℕ) : (toNat bs).testBit i = bs.getD i false := by
  induction bs generalizing i with
  | nil => simp [toNat]
  | cons b bs ih =>
    cases i with
    | zero =>
      rw [toNat, Nat.testBit_zero]
      cases b <;> simp
    | succ i =>
      have hhalf : (b.toNat + 2 * toNat bs) / 2 = toNat bs := by
        have hb := Bool.toNat_lt b
        omega
      rw [toNat, Nat.testBit_succ, hhalf, ih]
      rfl

theorem toNat_lt (bs : List Bool) : toNat bs < 2 ^ bs.length := by
  apply Nat.lt_pow_two_of_testBit
  intro i hi
  rw [testBit_toNat, List.getD_eq_default _ _ hi]

theorem getD_little {w i : ℕ} (hi : i < w) (n : ℕ) : (little w n).getD i false = n.testBit i := by
  simp [little, List.getD_eq_getElem?_getD, hi]

theorem toNat_little (w n : ℕ) : toNat (little w n) = n % 2 ^ w := by
  apply Nat.eq_of_testBit_eq
  intro i
  rw [testBit_toNat, Nat.testBit_mod_two_pow]
  rcases lt_or_ge i w with hi | hi
  · rw [getD_little hi]
    simp [hi]
  · rw [List.getD_eq_default _ _ (by simpa using hi)]
    simp [Nat.not_lt.2 hi]

theorem toNat_little_of_lt {w n : ℕ} (h : n < 2 ^ w) : toNat (little w n) = n := by
  rw [toNat_little, Nat.mod_eq_of_lt h]

end BitLists
