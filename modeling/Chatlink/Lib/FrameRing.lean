import Chatlink.Lib.Codec

/-!
# Frames in a ring of bytes

Positions count bytes from the beginning and never go down; the byte of position `p`
stands at index `p % N`. A frame is a message behind its length, padded to a multiple of
8, and never runs over the end of the ring: where it would, a mark takes the place of the
length and the frame starts at index 0. `Layout N mem p q ms` says that from position `p`
to `q` the memory holds the frames of `ms`.
-/
namespace FrameRing

open Codec

abbrev Memory := ℕ → UInt8

/-- What stands in place of a length where the rest of the ring is skipped. -/
def mark : ℕ := 2 ^ 32 - 1

/-- Memory after `bs` is written from index `i` on. -/
def put (mem : Memory) (i : ℕ) (bs : List UInt8) : Memory := fun j =>
  if i ≤ j ∧ j < i + bs.length then bs.getD (j - i) 0 else mem j

/-- The `n` bytes from index `i` on. -/
def slice (mem : Memory) (i n : ℕ) : List UInt8 := (List.range n).map fun k => mem (i + k)

/-- The 32-bit number at index `i`. -/
def word (mem : Memory) (i : ℕ) : ℕ := ofLe (slice mem i 4)

/-- A message behind its length. -/
def frame (m : List UInt8) : List UInt8 := le 4 m.length ++ m

/-- The next multiple of 8. -/
def padded (n : ℕ) : ℕ := (n + 7) / 8 * 8

/-- Bytes a message of `n` bytes takes in the ring. -/
def need (n : ℕ) : ℕ := padded (4 + n)

theorem le_need (n : ℕ) : 4 + n ≤ need n := by
  unfold need padded
  omega

theorem eight_le_need (n : ℕ) : 8 ≤ need n := by
  unfold need padded
  omega

theorem eight_dvd_need (n : ℕ) : 8 ∣ need n := dvd_mul_left 8 _

@[simp] theorem length_frame (m : List UInt8) : (frame m).length = 4 + m.length := by
  simp [frame]

@[simp] theorem length_slice (mem : Memory) (i n : ℕ) : (slice mem i n).length = n := by
  simp [slice]

theorem getElem_slice {mem : Memory} {i n k : ℕ} (h : k < (slice mem i n).length) :
    (slice mem i n)[k] = mem (i + k) := by
  simp [slice]

theorem slice_congr {mem mem' : Memory} {i n : ℕ} (h : ∀ k, k < n → mem' (i + k) = mem (i + k)) :
    slice mem' i n = slice mem i n := by
  apply List.map_congr_left
  intro k hk
  exact h k (List.mem_range.mp hk)

theorem slice_succ (mem : Memory) (i n : ℕ) :
    slice mem i (n + 1) = slice mem i n ++ [mem (i + n)] := by
  simp [slice, List.range_succ]

theorem slice_add (mem : Memory) (i a b : ℕ) :
    slice mem i (a + b) = slice mem i a ++ slice mem (i + a) b := by
  simp [slice, List.range_add, Function.comp_def, add_assoc]

theorem slice_put (mem : Memory) (i : ℕ) (bs : List UInt8) :
    slice (put mem i bs) i bs.length = bs := by
  apply List.ext_getElem (length_slice _ _ _)
  intro k hk hk'
  rw [getElem_slice, put, if_pos ⟨Nat.le_add_right i k, by omega⟩, Nat.add_sub_cancel_left]
  exact List.getD_eq_getElem bs 0 hk'

theorem put_of_lt {mem : Memory} {i j : ℕ} {bs : List UInt8} (h : j < i ∨ i + bs.length ≤ j) :
    put mem i bs j = mem j := by
  rw [put, if_neg]
  omega

/-- A frame in memory: the length and behind it the message. -/
theorem frame_parts {mem : Memory} {i : ℕ} {m : List UInt8}
    (h : slice mem i (4 + m.length) = frame m) :
    slice mem i 4 = le 4 m.length ∧ slice mem (i + 4) m.length = m := by
  rw [slice_add, frame] at h
  exact List.append_inj h (by simp)

theorem word_of_frame {mem : Memory} {i : ℕ} {m : List UInt8}
    (h : slice mem i (4 + m.length) = frame m) (hm : m.length < 2 ^ 32) :
    word mem i = m.length := by
  rw [word, (frame_parts h).1, ofLe_le_of_lt hm]

/-! ### Indices -/

/-- Positions less than a turn apart have different indices. -/
theorem index_ne {N p q : ℕ} (h : p < q) (h' : q < p + N) : q % N ≠ p % N := by
  intro heq
  have hdvd : N ∣ q - p := (Nat.modEq_iff_dvd' h.le).mp heq.symm
  have hle : N ≤ q - p := Nat.le_of_dvd (Nat.sub_pos_of_lt h) hdvd
  omega

/-- Within the ring's end, indices go up with the positions. -/
theorem index_add {N p k : ℕ} (h : p % N + k < N) : (p + k) % N = p % N + k := by
  have hk : k % N = k := Nat.mod_eq_of_lt (by omega)
  rw [Nat.add_mod, hk, Nat.mod_eq_of_lt h]

theorem index_skip {N p : ℕ} (hN : 0 < N) : (p + (N - p % N)) % N = 0 := by
  have hlt : p % N < N := Nat.mod_lt p hN
  have hsum : p + (N - p % N) = (p / N + 1) * N := by
    have hp := Nat.div_add_mod p N
    rw [Nat.add_mul, one_mul, mul_comm (p / N)]
    omega
  rw [hsum, Nat.mul_mod_left]

/-! ### What a write leaves alone -/

/-- The bytes of the positions from `p` on below `q` are the same in both memories. -/
def Kept (N : ℕ) (mem mem' : Memory) (p q : ℕ) : Prop :=
  ∀ k, p ≤ k → k < q → mem' (k % N) = mem (k % N)

section

variable {N p q i n : ℕ} {mem mem' : Memory}

theorem Kept.refl (N : ℕ) (mem : Memory) (p q : ℕ) : Kept N mem mem p q := fun _ _ _ => rfl

theorem Kept.mono {p' q' : ℕ} (h : Kept N mem mem' p q) (hp : p ≤ p') (hq : q' ≤ q) :
    Kept N mem mem' p' q' := fun k hk hk' => h k (hp.trans hk) (hk'.trans_le hq)

theorem Kept.slice (h : Kept N mem mem' p q) (hi : p ≤ i) (hn : i + n ≤ q) (hfit : i % N + n ≤ N) :
    slice mem' (i % N) n = slice mem (i % N) n := by
  apply slice_congr
  intro k hk
  rw [← index_add (by omega)]
  exact h (i + k) (by omega) (by omega)

/-- Writing at positions that are not before `q`, and less than a turn behind `p`. -/
theorem kept_put {bs : List UInt8} (hfit : i % N + bs.length ≤ N) (hq : q ≤ i)
    (hroom : i + bs.length ≤ p + N) : Kept N mem (put mem (i % N) bs) p q := by
  intro k hk hk'
  apply put_of_lt
  by_contra hin
  obtain ⟨j, hj⟩ : ∃ j, k % N = i % N + j := ⟨k % N - i % N, by omega⟩
  have hsame : (i + j) % N = k % N := by rw [hj, index_add (by omega)]
  exact index_ne (by omega) (by omega) hsame

end

/-! ### Layouts -/

inductive Layout (N : ℕ) (mem : Memory) : ℕ → ℕ → List (List UInt8) → Prop
  | done (p : ℕ) : Layout N mem p p []
  | skip {p q : ℕ} {ms : List (List UInt8)} : p % N + 4 ≤ N → word mem (p % N) = mark →
      Layout N mem (p + (N - p % N)) q ms → Layout N mem p q ms
  | frame {p q : ℕ} {m : List UInt8} {ms : List (List UInt8)} : p % N + need m.length ≤ N →
      slice mem (p % N) (4 + m.length) = frame m → Layout N mem (p + need m.length) q ms →
      Layout N mem p q (m :: ms)

namespace Layout

variable {N p q r : ℕ} {mem mem' : Memory} {ms ns : List (List UInt8)} {m : List UInt8}

/-- Every message takes at least 8 bytes. -/
theorem length_le (h : Layout N mem p q ms) : p + 8 * ms.length ≤ q := by
  induction h with
  | done p => exact le_rfl
  | skip _ _ _ ih => omega
  | @frame p q m ms _ _ _ ih =>
    have hneed := eight_le_need m.length
    rw [List.length_cons]
    omega

theorem le (h : Layout N mem p q ms) : p ≤ q := by
  have hlength := h.length_le
  omega

theorem nil_of_eq (h : Layout N mem p p ms) : ms = [] := by
  have hlength := h.length_le
  exact List.length_eq_zero_iff.mp (by omega)

theorem append (h : Layout N mem p q ms) (h' : Layout N mem q r ns) :
    Layout N mem p r (ms ++ ns) := by
  induction h with
  | done p => exact h'
  | skip hfit hmark _ ih => exact .skip hfit hmark (ih h')
  | frame hfit hslice _ ih => exact .frame hfit hslice (ih h')

/-- Only the bytes between the two positions count. -/
theorem congr (h : Layout N mem p q ms) (hkept : Kept N mem mem' p q) :
    Layout N mem' p q ms := by
  induction h with
  | done p => exact .done p
  | @skip p q ms hfit hmark hrest ih =>
    have hle := hrest.le
    have hword : word mem' (p % N) = word mem (p % N) := by
      rw [word, word, hkept.slice le_rfl (by omega) hfit]
    exact .skip hfit (hword.trans hmark) (ih (hkept.mono (by omega) le_rfl))
  | @frame p q m ms hfit hslice hrest ih =>
    have hle := hrest.le
    have hneed := le_need m.length
    have hslice' := hkept.slice le_rfl (n := 4 + m.length) (by omega) (by omega)
    exact .frame hfit (hslice'.trans hslice) (ih (hkept.mono (by omega) le_rfl))

/-- What a reader finds at the first position of a layout that is not empty: the mark, and
the frames start at the next turn, or the length of the first frame. -/
inductive First (N : ℕ) (mem : Memory) (p q : ℕ) (ms : List (List UInt8)) : Prop
  | skip : p % N + 4 ≤ N → p + 4 ≤ q → word mem (p % N) = mark →
      Layout N mem (p + (N - p % N)) q ms → First N mem p q ms
  | frame (m : List UInt8) (ns : List (List UInt8)) : ms = m :: ns →
      p % N + (4 + m.length) ≤ N → p + (4 + m.length) ≤ q → word mem (p % N) = m.length →
      m.length ≠ mark → slice mem (p % N + 4) m.length = m →
      Layout N mem (p + need m.length) q ns → First N mem p q ms

theorem first (h : Layout N mem p q ms) (hN : N ≤ 2 ^ 32) (hpq : p < q) :
    First N mem p q ms := by
  cases h with
  | done => exact absurd hpq (lt_irrefl p)
  | skip hfit hmark hrest =>
    have hle := hrest.le
    exact .skip hfit (by omega) hmark hrest
  | @frame _ _ m ns hfit hslice hrest =>
    have hle := hrest.le
    have hneed := le_need m.length
    have hmark : m.length ≠ mark := by
      unfold mark
      omega
    exact .frame m ns rfl (by omega) (by omega) (word_of_frame hslice (by omega)) hmark
      (frame_parts hslice).2 hrest

end Layout

end FrameRing
