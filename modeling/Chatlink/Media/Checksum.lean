import Chatlink.Media.Deflate
import Chatlink.Media.Inflate

/-!
# Adler-32 in 32 bits

The sums are reduced after every 5552 bytes. Up to there they stay within 32 bits, whatever the bytes are, and
reduced they are those of all bytes.
-/
namespace Chatlink.Media.Inflate

open Loops Deflate

/-- The sums, with no bound. -/
def sum (s : ℕ × ℕ) (bytes : List UInt8) : ℕ × ℕ := bytes.foldl (fun s v => (s.1 + v.toNat, s.2 + s.1 + v.toNat)) s

theorem sum_append (s : ℕ × ℕ) (xs ys : List UInt8) : sum s (xs ++ ys) = sum (sum s xs) ys := List.foldl_append

theorem add32_eq {a b : ℕ} (h : a + b < 2 ^ 32) : add32 a b = some (a + b) := if_pos h

/-- Bytes after `k` others of a part whose sums began small. -/
theorem foldlM_sumByte (bytes : List UInt8) {k a b : ℕ} (hk : k + bytes.length ≤ 5552) (ha : a ≤ 65520 + 255 * k)
    (hb : 2 * b ≤ 131040 + 131040 * k + 255 * (k * (k + 1))) :
    bytes.foldlM sumByte (a, b) = some (sum (a, b) bytes) := by
  induction bytes generalizing k a b with
  | nil => rfl
  | cons v bytes ih =>
    rw [List.length_cons] at hk
    have hv := v.toNat_lt
    have hsquare : k * (k + 1) ≤ 5551 * 5552 := Nat.mul_le_mul (by omega) (by omega)
    have hnext : (k + 1) * (k + 1 + 1) = k * (k + 1) + 2 * (k + 1) := by ring
    have hstep : sumByte (a, b) v = some (a + v.toNat, b + a + v.toNat) := by
      unfold sumByte
      simp only [add32_eq (show a + v.toNat < 2 ^ 32 by omega), add32_eq (show b + a < 2 ^ 32 by omega),
        add32_eq (show b + a + v.toNat < 2 ^ 32 by omega), Option.bind_eq_bind, Option.bind_some, Option.pure_def]
    rw [List.foldlM_cons, hstep, Option.bind_eq_bind, Option.bind_some,
      ih (k := k + 1) (by omega) (by omega) (by rw [hnext]; omega)]
    rfl

/-- The sums are determined up to a multiple of the modulus. -/
theorem sum_mod (m : ℕ) (bytes : List UInt8) (a b : ℕ) :
    (sum (a % m, b % m) bytes).1 % m = (sum (a, b) bytes).1 % m ∧
      (sum (a % m, b % m) bytes).2 % m = (sum (a, b) bytes).2 % m := by
  have hcongr : ∀ bytes : List UInt8, ∀ a b a' b' : ℕ, a % m = a' % m → b % m = b' % m →
      (sum (a, b) bytes).1 % m = (sum (a', b') bytes).1 % m ∧
        (sum (a, b) bytes).2 % m = (sum (a', b') bytes).2 % m := by
    intro bytes
    induction bytes with
    | nil => exact fun a b a' b' ha hb => ⟨ha, hb⟩
    | cons v bytes ih =>
      intro a b a' b' ha hb
      exact ih _ _ _ _ (Nat.ModEq.add_right _ ha) (Nat.ModEq.add_right _ (Nat.ModEq.add hb ha))
  exact hcongr bytes _ _ _ _ (Nat.mod_mod _ _) (Nat.mod_mod _ _)

/-- Parts of no more than 5552 bytes, reduced after each. -/
theorem foldlM_chunks (parts : List (List UInt8)) (hparts : ∀ p ∈ parts, p.length ≤ 5552) {a b : ℕ} (ha : a < 65521)
    (hb : b < 65521) :
    parts.foldlM (fun s chunk => do
      let (a, b) ← chunk.foldlM sumByte s
      return (a % 65521, b % 65521)) (a, b) =
      some ((sum (a, b) parts.flatten).1 % 65521, (sum (a, b) parts.flatten).2 % 65521) := by
  induction parts generalizing a b with
  | nil => simp [sum, Nat.mod_eq_of_lt ha, Nat.mod_eq_of_lt hb]
  | cons p parts ih =>
    have hp := foldlM_sumByte p (k := 0) (a := a) (b := b) (by simpa using hparts p (by simp)) (by omega) (by omega)
    rw [List.foldlM_cons]
    simp only [hp, Option.bind_eq_bind, Option.bind_some, Option.pure_def]
    have hrest := ih (fun q hq => hparts q (by simp [hq])) (Nat.mod_lt (sum (a, b) p).1 (by norm_num))
      (Nat.mod_lt (sum (a, b) p).2 (by norm_num))
    obtain ⟨hlow, hhigh⟩ := sum_mod 65521 parts.flatten (sum (a, b) p).1 (sum (a, b) p).2
    rw [hlow, hhigh] at hrest
    rw [List.flatten_cons, sum_append]
    simpa using hrest

theorem sum_eq (out : List UInt8) :
    sum (1, 0) out = (1 + (out.map UInt8.toNat).sum,
      ((List.range out.length).map fun i => 1 + ((out.take (i + 1)).map UInt8.toNat).sum).sum) := by
  induction out using List.reverseRecOn with
  | nil => rfl
  | append_singleton out v ih =>
    have htake : ((List.range out.length).map fun i => 1 + (((out ++ [v]).take (i + 1)).map UInt8.toNat).sum) =
        (List.range out.length).map fun i => 1 + ((out.take (i + 1)).map UInt8.toNat).sum := by
      apply List.map_congr_left
      intro i hi
      rw [List.mem_range] at hi
      rw [List.take_append_of_le_length (by omega)]
    rw [sum_append, ih]
    apply Prod.ext
    · simp [sum]
      omega
    · rw [List.length_append, List.length_singleton, List.range_succ]
      simp only [List.map_append, htake, List.sum_append]
      simp [sum]
      omega

/-- The sums stay within 32 bits, and reduced they are the checksum's halves. -/
theorem sums_eq (out : List UInt8) : sums out = some (adlerLow out, adlerHigh out) := by
  have hparts : ∀ p ∈ chunks 5552 out, p.length ≤ 5552 := by
    intro p hp
    unfold chunks at hp
    obtain ⟨k, -, rfl⟩ := List.mem_map.1 hp
    exact List.length_take_le _ _
  unfold sums
  rw [foldlM_chunks _ hparts (by norm_num) (by norm_num), flatten_chunks (by norm_num), sum_eq]
  rfl

end Chatlink.Media.Inflate
