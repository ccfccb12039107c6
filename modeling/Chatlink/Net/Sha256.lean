import Chatlink.Lib.Sha2

/-!
# The two compressions of SHA-256

One path follows the standard word by word. The other keeps the chaining state in two vector registers and takes four
rounds and four words of the schedule at a time. Both are the standard's compression.
-/
namespace Chatlink.Net.Sha256

open Codec Loops Sha2

def K : List UInt32 := [
  0x428a2f98, 0x71374491, 0xb5c0fbcf, 0xe9b5dba5, 0x3956c25b, 0x59f111f1, 0x923f82a4, 0xab1c5ed5,
  0xd807aa98, 0x12835b01, 0x243185be, 0x550c7dc3, 0x72be5d74, 0x80deb1fe, 0x9bdc06a7, 0xc19bf174,
  0xe49b69c1, 0xefbe4786, 0x0fc19dc6, 0x240ca1cc, 0x2de92c6f, 0x4a7484aa, 0x5cb0a9dc, 0x76f988da,
  0x983e5152, 0xa831c66d, 0xb00327c8, 0xbf597fc7, 0xc6e00bf3, 0xd5a79147, 0x06ca6351, 0x14292967,
  0x27b70a85, 0x2e1b2138, 0x4d2c6dfc, 0x53380d13, 0x650a7354, 0x766a0abb, 0x81c2c92e, 0x92722c85,
  0xa2bfe8a1, 0xa81a664b, 0xc24b8b70, 0xc76c51a3, 0xd192e819, 0xd6990624, 0xf40e3585, 0x106aa070,
  0x19a4c116, 0x1e376c08, 0x2748774c, 0x34b0bcb5, 0x391c0cb3, 0x4ed8aa4a, 0x5b9cca4f, 0x682e6ff3,
  0x748f82ee, 0x78a5636f, 0x84c87814, 0x8cc70208, 0x90befffa, 0xa4506ceb, 0xbef9a3f7, 0xc67178f2]

theorem K_eq : K = constants := by decide +kernel

/-- The state a hash starts from. -/
def initialState : State :=
  ⟨0x6a09e667, 0xbb67ae85, 0x3c6ef372, 0xa54ff53a, 0x510e527f, 0x9b05688c, 0x1f83d9ab, 0x5be0cd19⟩

theorem initialState_eq : initialState = initial := by decide +kernel

/-! ## Word by word -/

/-- The word at `i` from the ones before it. -/
def scheduleStep (w : List UInt32) (i : ℕ) : List UInt32 :=
  let x := w.getD (i - 15) 0
  let y := w.getD (i - 2) 0
  let s0 := rotr 7 x ^^^ rotr 18 x ^^^ (x >>> 3)
  let s1 := rotr 17 y ^^^ rotr 19 y ^^^ (y >>> 10)
  w.set i (w.getD (i - 16) 0 + s0 + w.getD (i - 7) 0 + s1)

def roundStep (w : List UInt32) (s : State) (i : ℕ) : State :=
  let t1 := s.h + (rotr 6 s.e ^^^ rotr 11 s.e ^^^ rotr 25 s.e) + ((s.e &&& s.f) ^^^ (~~~s.e &&& s.g)) + K.getD i 0 +
    w.getD i 0
  let t2 := (rotr 2 s.a ^^^ rotr 13 s.a ^^^ rotr 22 s.a) + ((s.a &&& s.b) ^^^ (s.a &&& s.c) ^^^ (s.b &&& s.c))
  ⟨t1 + t2, s.a, s.b, s.c, s.d + t1, s.e, s.f, s.g⟩

def compressScalar (state : State) (block : List UInt8) : State :=
  let w := (chunks 4 block).zipIdx.foldl (fun w c => w.set c.2 (ofBe c.1)) (List.replicate 64 0)
  let w := (List.range' 16 48).foldl scheduleStep w
  state + (List.range 64).foldl (roundStep w) state

/-- A loop that writes one place after the other. -/
theorem foldl_set {α β : Type} (f : α → β) (xs : List α) (before w : List β) (h : xs.length ≤ w.length) :
    (xs.zipIdx before.length).foldl (fun w c => w.set c.2 (f c.1)) (before ++ w) =
      before ++ xs.map f ++ w.drop xs.length := by
  induction xs generalizing before w with
  | nil => simp
  | cons x xs ih =>
    cases w with
    | nil => simp at h
    | cons b w =>
      have hset : (before ++ b :: w).set before.length (f x) = (before ++ [f x]) ++ w := by simp
      have hlen : before.length + 1 = (before ++ [f x]).length := by simp
      rw [List.zipIdx_cons, List.foldl_cons, hset, hlen, ih _ _ (by simpa using h)]
      simp

/-- The words so far, and zeros up to sixty-four. -/
theorem schedule_loop {ws : List UInt32} (h : ws.length = 16) :
    (List.range' 16 48).foldl scheduleStep (ws ++ List.replicate 48 0) = schedule ws 48 := by
  have hloop : (List.range 48).foldl (fun w i => scheduleStep w (16 + i)) (ws ++ List.replicate 48 0) =
      schedule ws 48 ++ List.replicate (48 - 48) 0 := by
    refine foldl_range (P := fun i w => w = schedule ws i ++ List.replicate (48 - i) 0) rfl fun i hi w hw => ?_
    have hlen : (schedule ws i).length = 16 + i := by rw [length_schedule, h]
    have hget : ∀ j < 16 + i, w.getD j 0 = (schedule ws i).getD j 0 := by
      intro j hj
      rw [hw, List.getD_append _ _ _ _ (by rwa [hlen])]
    have hrest : List.replicate (48 - i) (0 : UInt32) = 0 :: List.replicate (48 - (i + 1)) 0 := by
      rw [← List.replicate_succ, show 48 - (i + 1) + 1 = 48 - i by omega]
    have hset : ∀ x, w.set (16 + i) x = schedule ws i ++ [x] ++ List.replicate (48 - (i + 1)) 0 := by
      intro x
      rw [hw, hrest, ← hlen]
      simp
    rw [scheduleStep, hset, hget _ (by omega), hget _ (by omega), hget _ (by omega), hget _ (by omega), schedule,
      show 16 + i - 15 = i + 1 by omega, show 16 + i - 2 = i + 14 by omega, show 16 + i - 7 = i + 9 by omega,
      show 16 + i - 16 = i by omega]
    congr 3
    simp only [smallSigma0, smallSigma1]
    ac_rfl
  rw [List.range'_eq_map_range, List.foldl_map, hloop, Nat.sub_self, List.replicate_zero, List.append_nil]

theorem compressScalar_eq (state : State) {block : List UInt8} (h : block.length = 64) :
    compressScalar state block = compress state block := by
  have hwords : (chunks 4 block).zipIdx.foldl (fun w c => w.set c.2 (ofBe c.1)) (List.replicate 64 0) =
      words block ++ List.replicate 48 0 := by
    have hlen : (chunks 4 block).length = 16 := by
      rw [← length_words h, words, List.length_map]
    have hset := foldl_set ofBe (chunks 4 block) [] (List.replicate 64 0) (by rw [hlen]; simp)
    rw [List.nil_append, hlen] at hset
    exact hset
  have hrounds : (List.range 64).foldl (roundStep (schedule (words block) 48)) state =
      rounds (fun t => constants.getD t 0) (word block) 64 state := by
    refine foldl_range (P := fun i s => s = rounds (fun t => constants.getD t 0) (word block) i state) rfl ?_
    rintro i - s rfl
    rw [roundStep, K_eq]
    rfl
  simp only [compressScalar, hwords, schedule_loop (length_words h), hrounds, compress, State.add_def]
  simp only [UInt32.add_comm]

/-! ## Whole blocks -/

/-- The pieces of exactly `n` elements; a shorter rest is left out. -/
def chunksExact {α : Type} (n : ℕ) (xs : List α) : List (List α) := chunks n (xs.take (xs.length / n * n))

theorem length_whole {α : Type} (n : ℕ) (xs : List α) : (xs.take (xs.length / n * n)).length = xs.length / n * n :=
  List.length_take_of_le (Nat.div_mul_le_self _ _)

theorem length_of_mem_chunksExact {α : Type} {n : ℕ} (hn : 0 < n) {xs c : List α} (hc : c ∈ chunksExact n xs) :
    c.length = n := by
  obtain ⟨k, hk, rfl⟩ := List.mem_map.mp hc
  rw [List.mem_range, length_whole, Nat.ceilDiv_eq_add_pred_div, Nat.add_sub_assoc (by omega : 1 ≤ n),
    Nat.mul_comm _ n, Nat.mul_add_div hn, Nat.div_eq_of_lt (by omega : n - 1 < n), Nat.add_zero] at hk
  rw [List.length_take, List.length_drop, length_whole, Nat.mul_comm _ n, ← Nat.mul_sub]
  exact Nat.min_eq_left (Nat.le_mul_of_pos_right n (by omega))

theorem scalar_absorb (state : State) (blocks : List UInt8) :
    (chunksExact 64 blocks).foldl compressScalar state = absorb state (blocks.take (blocks.length / 64 * 64)) :=
  List.foldl_ext _ _ _ fun s _ hc => compressScalar_eq s (length_of_mem_chunksExact (by decide) hc)

end Chatlink.Net.Sha256
