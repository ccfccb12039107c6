import Chatlink.Lib.FrameRing

/-!
# A client's shared memory

The sizes of its request area and of its response ring, and the room a frame takes in the
ring.
-/
namespace Chatlink.Serve

open FrameRing

def REQUEST_BYTES : ℕ := 2 ^ 20
def RING_BYTES : ℕ := 2 ^ 20

/-- Stands in place of a length: the rest of the ring is skipped. -/
def WRAP : ℕ := 2 ^ 32 - 1

/-- The bytes skipped before a frame of `n` bytes at position `at_`: the rest of the ring
where the frame would run over its end. -/
def skipBefore (at_ n : ℕ) : ℕ :=
  if at_ % RING_BYTES + n > RING_BYTES then RING_BYTES - at_ % RING_BYTES else 0

theorem skipBefore_zero {at_ n : ℕ} (h : skipBefore at_ n = 0) :
    at_ % RING_BYTES + n ≤ RING_BYTES := by
  have hlt : at_ % RING_BYTES < RING_BYTES := Nat.mod_lt _ (by decide)
  unfold skipBefore at h
  split at h <;> omega

theorem skipBefore_pos {at_ n : ℕ} (h : 0 < skipBefore at_ n) :
    skipBefore at_ n = RING_BYTES - at_ % RING_BYTES := by
  unfold skipBefore at h ⊢
  split at h
  · next hgt => rw [if_pos hgt]
  · exact absurd h (lt_irrefl 0)

/-- A frame that fits the ring at all fits behind what is skipped. -/
theorem fits_after_skip {at_ n : ℕ} (h : n ≤ RING_BYTES) :
    (at_ + skipBefore at_ n) % RING_BYTES + n ≤ RING_BYTES := by
  rcases Nat.eq_zero_or_pos (skipBefore at_ n) with hzero | hpos
  · rw [hzero, add_zero]
    exact skipBefore_zero hzero
  · rw [skipBefore_pos hpos, index_skip (by decide), zero_add]
    exact h

end Chatlink.Serve
