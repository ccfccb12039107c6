import Chatlink.Lib.Codec
import Chatlink.Lib.Loops

/-!
# SHA-256 as its standard defines it

A message is padded to blocks of sixty-four bytes. A block spells sixteen words, which a recurrence continues to
sixty-four, and as many rounds mix them into a chaining state. The constants are the leading bits of roots of the
first primes. On top of a hash stand its keyed form and the expansion of a key.
-/
namespace Sha2

open Codec Loops

/-- The chaining state. -/
structure State where
  a : UInt32
  b : UInt32
  c : UInt32
  d : UInt32
  e : UInt32
  f : UInt32
  g : UInt32
  h : UInt32
  deriving DecidableEq

instance : Add State :=
  ⟨fun s t => ⟨s.a + t.a, s.b + t.b, s.c + t.c, s.d + t.d, s.e + t.e, s.f + t.f, s.g + t.g, s.h + t.h⟩⟩

theorem State.add_def (s t : State) :
    s + t = ⟨s.a + t.a, s.b + t.b, s.c + t.c, s.d + t.d, s.e + t.e, s.f + t.f, s.g + t.g, s.h + t.h⟩ := rfl

/-! ## Constants -/

/-- The `bits` leading binary digits of the `e`th root of `n`, the highest first. -/
def root (e n : ℕ) : ℕ → ℕ → ℕ
  | 0, r => r
  | bits + 1, r => root e n bits (if (r + 2 ^ bits) ^ e ≤ n then r + 2 ^ bits else r)

/-- The first sixty-four primes. A number below 18² is tested by the numbers below 18. -/
def primes : List ℕ := (List.range 312).filter fun n => 2 ≤ n ∧ ∀ m ∈ List.range 18, m ∣ n → m = 1 ∨ m = n

/-- Thirty-two bits behind the point of the `e`th root of a prime. -/
def fraction (e p : ℕ) : UInt32 := UInt32.ofNat (root e (p * 2 ^ (32 * e)) 37 0)

def constants : List UInt32 := primes.map (fraction 3)

def initial : State :=
  let r := fun i => fraction 2 (primes.getD i 0)
  ⟨r 0, r 1, r 2, r 3, r 4, r 5, r 6, r 7⟩

/-! ## Rounds -/

def rotr (n x : UInt32) : UInt32 := x >>> n ||| x <<< (32 - n)

def ch (x y z : UInt32) : UInt32 := (x &&& y) ^^^ (~~~x &&& z)

def maj (x y z : UInt32) : UInt32 := (x &&& y) ^^^ (x &&& z) ^^^ (y &&& z)

def bigSigma0 (x : UInt32) : UInt32 := rotr 2 x ^^^ rotr 13 x ^^^ rotr 22 x

def bigSigma1 (x : UInt32) : UInt32 := rotr 6 x ^^^ rotr 11 x ^^^ rotr 25 x

def smallSigma0 (x : UInt32) : UInt32 := rotr 7 x ^^^ rotr 18 x ^^^ (x >>> 3)

def smallSigma1 (x : UInt32) : UInt32 := rotr 17 x ^^^ rotr 19 x ^^^ (x >>> 10)

/-- One round with its constant and its word. -/
def round (k w : UInt32) (s : State) : State :=
  let t₁ := s.h + bigSigma1 s.e + ch s.e s.f s.g + k + w
  let t₂ := bigSigma0 s.a + maj s.a s.b s.c
  ⟨t₁ + t₂, s.a, s.b, s.c, s.d + t₁, s.e, s.f, s.g⟩

/-- The first `n` rounds. -/
def rounds (k w : ℕ → UInt32) : ℕ → State → State
  | 0, s => s
  | n + 1, s => round (k n) (w n) (rounds k w n s)

/-- The words of a block and `n` that follow from them. -/
def schedule (ws : List UInt32) : ℕ → List UInt32
  | 0 => ws
  | n + 1 =>
    let w := schedule ws n
    w ++ [smallSigma1 (w.getD (n + 14) 0) + w.getD (n + 9) 0 + smallSigma0 (w.getD (n + 1) 0) + w.getD n 0]

/-- The word that four bytes spell, the highest first. -/
def ofBe (bs : List UInt8) : UInt32 := UInt32.ofNat (ofLe bs.reverse)

def toBe (w : UInt32) : List UInt8 := (le 4 w.toNat).reverse

def words (block : List UInt8) : List UInt32 := (chunks 4 block).map ofBe

/-- The word of a block's schedule that a round takes. -/
def word (block : List UInt8) (t : ℕ) : UInt32 := (schedule (words block) 48).getD t 0

def compress (s : State) (block : List UInt8) : State :=
  rounds (fun t => constants.getD t 0) (word block) 64 s + s

/-! ## Messages -/

/-- Whole pieces in front are cut off as such. -/
theorem chunks_append {α : Type*} {n : ℕ} (hn : 0 < n) {xs : List α} (hx : n ∣ xs.length) (ys : List α) :
    chunks n (xs ++ ys) = chunks n xs ++ chunks n ys := by
  obtain ⟨k, hk⟩ := hx
  induction k generalizing xs with
  | zero =>
    obtain rfl : xs = [] := List.length_eq_zero_iff.mp (by simpa using hk)
    rw [chunks_nil, List.nil_append, List.nil_append]
  | succ k ih =>
    have hlen : n ≤ xs.length := by
      rw [hk, Nat.mul_succ]
      exact Nat.le_add_left _ _
    have hne : xs ≠ [] := List.ne_nil_of_length_pos (hn.trans_le hlen)
    have hrest : (xs.drop n).length = n * k := by
      rw [List.length_drop, hk, Nat.mul_succ, Nat.add_sub_cancel]
    rw [chunks_of_ne_nil hn (List.append_ne_nil_of_left_ne_nil hne ys), chunks_of_ne_nil hn hne,
      List.take_append_of_le_length hlen, List.drop_append_of_le_length hlen, ih hrest, List.cons_append]

/-- The zeros between the mark behind a message of `n` bytes and its length. -/
def zeros (n : ℕ) : ℕ := (119 - n % 64) % 64

def padding (n : ℕ) : List UInt8 := 0x80 :: List.replicate (zeros n) 0 ++ (le 8 (8 * n)).reverse

/-- Blocks end to end, mixed in one after the other. -/
def absorb (s : State) (bs : List UInt8) : State := (chunks 64 bs).foldl compress s

def State.bytes (s : State) : List UInt8 :=
  toBe s.a ++ toBe s.b ++ toBe s.c ++ toBe s.d ++ toBe s.e ++ toBe s.f ++ toBe s.g ++ toBe s.h

def digest (msg : List UInt8) : List UInt8 := (absorb initial (msg ++ padding msg.length)).bytes

@[simp] theorem length_toBe (w : UInt32) : (toBe w).length = 4 := by simp [toBe]

@[simp] theorem length_digest (msg : List UInt8) : (digest msg).length = 32 := by simp [digest, State.bytes]

theorem length_padding (n : ℕ) : (padding n).length = 9 + zeros n := by
  simp only [padding, List.length_append, List.length_cons, List.length_replicate, List.length_reverse, length_le]
  omega

/-- A padded message is blocks end to end. -/
theorem padded_length (msg : List UInt8) : 64 ∣ (msg ++ padding msg.length).length := by
  rw [List.length_append, length_padding, zeros]
  omega

@[simp] theorem absorb_nil (s : State) : absorb s [] = s := by
  rw [absorb, chunks_nil]
  rfl

theorem absorb_append (s : State) {xs : List UInt8} (hx : 64 ∣ xs.length) (ys : List UInt8) :
    absorb s (xs ++ ys) = absorb (absorb s xs) ys := by
  rw [absorb, absorb, absorb, chunks_append (by decide) hx, List.foldl_append]

/-! ## Schedules -/

theorem length_schedule (ws : List UInt32) (n : ℕ) : (schedule ws n).length = ws.length + n := by
  induction n with
  | zero => rfl
  | succ n ih =>
    rw [schedule, List.length_append, ih]
    rfl

theorem getD_schedule_succ {ws : List UInt32} {n t : ℕ} (h : t < ws.length + n) :
    (schedule ws (n + 1)).getD t 0 = (schedule ws n).getD t 0 := by
  rw [schedule, List.getD_append _ _ _ _ (by rwa [length_schedule])]

/-- A longer schedule continues a shorter one. -/
theorem getD_schedule_add {ws : List UInt32} {n t : ℕ} (h : t < ws.length + n) (m : ℕ) :
    (schedule ws (n + m)).getD t 0 = (schedule ws n).getD t 0 := by
  induction m with
  | zero => rfl
  | succ m ih =>
    rw [← Nat.add_assoc, getD_schedule_succ (by omega), ih]

theorem length_words {block : List UInt8} (h : block.length = 64) : (words block).length = 16 := by
  rw [words, List.length_map, chunks, List.length_map, List.length_range, h]
  rfl

/-- The recurrence that continues the words of a block. -/
theorem word_rec {block : List UInt8} (hb : block.length = 64) {t : ℕ} (ht : t < 48) :
    word block (t + 16) = smallSigma1 (word block (t + 14)) + word block (t + 9) + smallSigma0 (word block (t + 1)) +
      word block t := by
  have hlen : (schedule (words block) t).length = 16 + t := by rw [length_schedule, length_words hb]
  have hword : ∀ u < 16 + t, word block u = (schedule (words block) t).getD u 0 := by
    intro u hu
    have hsum : (48 : ℕ) = t + (48 - t) := by omega
    rw [word, hsum, getD_schedule_add (by rwa [length_words hb])]
  have hlast : word block (t + 16) = (schedule (words block) (t + 1)).getD (t + 16) 0 := by
    have hsum : (48 : ℕ) = t + 1 + (47 - t) := by omega
    rw [word, hsum, getD_schedule_add (by rw [length_words hb]; omega)]
  rw [hlast, schedule, List.getD_append_right _ _ _ _ (by omega), hlen, show t + 16 - (16 + t) = 0 by omega,
    hword _ (by omega), hword _ (by omega), hword _ (by omega), hword _ (by omega)]
  rfl

theorem word_of_lt {block : List UInt8} (hb : block.length = 64) {t : ℕ} (ht : t < 16) :
    word block t = (words block).getD t 0 := by
  have hlen : t < (words block).length + 0 := by rwa [length_words hb]
  have h := getD_schedule_add hlen 48
  rwa [Nat.zero_add] at h

/-! ## Keyed hashing over any hash -/

section

variable (H : List UInt8 → List UInt8) (size : ℕ)

/-- The key, or the hash of one that is longer than a block, with zeros up to a block. -/
def keyBlock (key : List UInt8) : List UInt8 :=
  let k := if key.length ≤ size then key else H key
  k ++ List.replicate (size - k.length) 0

def hmac (key msg : List UInt8) : List UInt8 :=
  H ((keyBlock H size key).map (· ^^^ 0x5c) ++ H ((keyBlock H size key).map (· ^^^ 0x36) ++ msg))

/-- The bytes a key expands to: each block is the code of the one before, the context and a count from one. -/
def expansion (prk info : List UInt8) : ℕ → List UInt8
  | 0 => []
  | n + 1 => hmac H size prk (expansion prk info n ++ info ++ [UInt8.ofNat (n + 1)])

/-- The first `len` bytes of that. -/
def expand (prk info : List UInt8) (len : ℕ) : List UInt8 :=
  (((List.range (len ⌈/⌉ 32)).map fun i => expansion H size prk info (i + 1)).flatten).take len

end

end Sha2
