import Chatlink.Tachyon.Media

/-!
# The feature frames of a clip

A clip at the encoder's rate is cut into frames that overlap. Frames that reach into its padding are zeros, and the
tower does not read them. How many are left is computed from the length alone, as is how many soft tokens they become.
-/
namespace Chatlink.Tachyon.Audio

open Serve (F32)

def MEL_BINS : ℕ := 128

/-- Samples of a feature frame, and between frames. -/
def FRAME : ℕ := 320

def HOP : ℕ := 160

/-- Feature frames of 30 s, and the soft tokens they become: what the tower's buffers hold. -/
def FRAMES : ℕ := (MAX_SAMPLES - 1) / 160

def TOKENS : ℕ := FRAMES ⌈/⌉ 4

/-- Rows behind the most soft tokens, for a product's last block. -/
def SLACK : ℕ := 128

/-- The next multiple of `k`. -/
def nextMultiple (n k : ℕ) : ℕ := n ⌈/⌉ k * k

/-- How many frames `len` samples are cut into. -/
def melFrames (len : ℕ) : ℕ :=
  let padded := HOP + nextMultiple (min len MAX_SAMPLES) 128
  if FRAME + 1 ≤ padded then (padded - (FRAME + 1)) / HOP + 1 else 0

/-- Whether a frame reaches into the padding. -/
def masked (len f : ℕ) : Bool := min len MAX_SAMPLES ≤ f * HOP + FRAME - HOP

/-- The features of `len` samples, `bin` computing one of a frame. -/
def mel (bin : ℕ → ℕ → F32) (len : ℕ) : List F32 :=
  (List.range (melFrames len)).flatMap fun f =>
    if masked len f then List.replicate MEL_BINS ⟨0⟩ else (List.range MEL_BINS).map (bin f)

/-- The rows of the tower's first convolution, of stride 2. -/
def rows (len : ℕ) : ℕ := valid len ⌈/⌉ 2

section

variable {len : ℕ}

theorem masked_iff (len f : ℕ) : masked len f = false ↔ f < valid len := by
  rw [masked, valid, HOP, FRAME, Nat.ceilDiv_eq_add_pred_div, decide_eq_false_iff_not]
  omega

/-- The frames of samples padded to a multiple of 128. -/
theorem melFrames_eq (len : ℕ) : ∃ m, 128 ∣ m ∧ min len MAX_SAMPLES ≤ m ∧ m < min len MAX_SAMPLES + 128 ∧
    melFrames len = if 161 ≤ m then (m - 161) / 160 + 1 else 0 := by
  refine ⟨nextMultiple (min len MAX_SAMPLES) 128, Nat.dvd_mul_left 128 _, ?_, ?_, ?_⟩
  · rw [nextMultiple, Nat.ceilDiv_eq_add_pred_div]
    omega
  · rw [nextMultiple, Nat.ceilDiv_eq_add_pred_div]
    omega
  · rw [melFrames, HOP, FRAME]
    by_cases h : 161 ≤ nextMultiple (min len MAX_SAMPLES) 128
    · rw [if_pos h, if_pos (by omega)]
      omega
    · rw [if_neg h, if_neg (by omega)]

theorem valid_le_melFrames (len : ℕ) : valid len ≤ melFrames len := by
  obtain ⟨m, -, hle, -, hm⟩ := melFrames_eq len
  rw [hm, valid, Nat.ceilDiv_eq_add_pred_div]
  split_ifs <;> omega

theorem melFrames_le (len : ℕ) : melFrames len ≤ FRAMES := by
  obtain ⟨m, hdvd, -, hlt, hm⟩ := melFrames_eq len
  have hmax : min len MAX_SAMPLES ≤ 480000 := Nat.min_le_right _ _
  have hframes : FRAMES = 2999 := rfl
  rw [hm, hframes]
  split_ifs <;> omega

theorem filter_range_lt {v m : ℕ} (h : v ≤ m) : (List.range m).filter (fun f => decide (f < v)) = List.range v := by
  obtain ⟨k, rfl⟩ := Nat.exists_eq_add_of_le h
  rw [List.range_add, List.filter_append, List.filter_eq_self.mpr, List.filter_eq_nil_iff.mpr, List.append_nil]
  · intro f hf
    obtain ⟨i, -, rfl⟩ := List.mem_map.mp hf
    simp
  · intro f hf
    simpa using hf

/-- The frames that are not masked are the first ones, as many as the tower reads. -/
theorem unmasked_frames (len : ℕ) : (List.range (melFrames len)).filter (fun f => !masked len f) = List.range (valid len) := by
  have hpred : (fun f => !masked len f) = fun f => decide (f < valid len) := by
    funext f
    rw [Bool.eq_iff_iff, decide_eq_true_iff, ← masked_iff, Bool.not_eq_true']
  rw [hpred, filter_range_lt (valid_le_melFrames len)]

theorem length_mel (bin : ℕ → ℕ → F32) (len : ℕ) : (mel bin len).length = melFrames len * MEL_BINS := by
  rw [mel, List.length_flatMap]
  have hrow : ∀ f, (if masked len f then List.replicate MEL_BINS ⟨0⟩ else (List.range MEL_BINS).map (bin f)).length =
      MEL_BINS := by
    intro f
    split_ifs <;> simp
  simp [hrow]

/-- Rows, tokens and a product's last block of them stay inside the buffers. -/
theorem rows_le (len : ℕ) : rows len ≤ FRAMES ⌈/⌉ 2 ∧ softTokens len ≤ TOKENS ∧
    nextMultiple (softTokens len) 128 ≤ TOKENS + SLACK := by
  have hvalid : valid len ≤ 2999 := (valid_le_melFrames len).trans (melFrames_le len)
  have hframes : FRAMES = 2999 := rfl
  have htokens : TOKENS = 750 := rfl
  rw [rows, softTokens, nextMultiple, htokens, SLACK, hframes]
  simp only [Nat.ceilDiv_eq_add_pred_div]
  omega

/-- A clip's slots are counted as the samples it has at the encoder's rate are. -/
theorem count_resampled {audio : Audio} {n : ℕ} (hrate : 0 < audio.rate)
    (h : audio.resampled SAMPLE_RATE = .ok n) : audio.count = softTokens n := by
  rw [count, max_eq_left (Nat.one_le_of_lt hrate)]
  simp only [resampled] at h
  split_ifs at h with hsame hratio
  · obtain rfl := Except.ok.inj h
    have hsame' : (audio.samples.length * SAMPLE_RATE) ⌈/⌉ SAMPLE_RATE = audio.samples.length := by
      rw [SAMPLE_RATE, Nat.ceilDiv_eq_add_pred_div]
      omega
    rw [← hsame, hsame']
  · obtain rfl := Except.ok.inj h
    rw [ceilDiv_gcd _ _ _ hrate]

/-- From the clip's length alone: the slots of the template, the frames that are not masked and the tokens they become
agree, and everything fits the buffers. -/
theorem clip_lengths (bin : ℕ → ℕ → F32) (audio : Audio) (n : ℕ) (hrate : 0 < audio.rate)
    (h : audio.resampled SAMPLE_RATE = .ok n) :
    audio.count = softTokens n ∧ softTokens n = rows n ⌈/⌉ 2 ∧
      (List.range (melFrames n)).filter (fun f => !masked n f) = List.range (valid n) ∧
      (mel bin n).length ≤ FRAMES * MEL_BINS ∧ rows n ≤ FRAMES ⌈/⌉ 2 ∧ softTokens n ≤ TOKENS ∧
      nextMultiple (softTokens n) 128 ≤ TOKENS + SLACK := by
  refine ⟨count_resampled hrate h, rfl, unmasked_frames n, ?_, rows_le n⟩
  rw [length_mel]
  exact Nat.mul_le_mul_right _ (melFrames_le n)

/-- A tenth of a second at 44.1 kHz. -/
def tenth : Audio := ⟨44100, List.replicate 4410 ⟨0⟩⟩

/-- Ten frames, the last of them masked, make five rows and three tokens. -/
theorem clip_lengths_tenth : (melFrames 1600 = 10 ∧ valid 1600 = 9 ∧ rows 1600 = 5) ∧ tenth.count = softTokens 1600 ∧
    softTokens 1600 = rows 1600 ⌈/⌉ 2 ∧
      (List.range (melFrames 1600)).filter (fun f => !masked 1600 f) = List.range (valid 1600) ∧
      (mel (fun f b => ⟨UInt32.ofNat (f + b)⟩) 1600).length ≤ FRAMES * MEL_BINS ∧ rows 1600 ≤ FRAMES ⌈/⌉ 2 ∧
      softTokens 1600 ≤ TOKENS ∧ nextMultiple (softTokens 1600) 128 ≤ TOKENS + SLACK := by
  have hsamples : tenth.resampled SAMPLE_RATE = .ok 1600 := by
    rw [resampled, tenth, List.length_replicate]
    rfl
  exact ⟨by decide, clip_lengths _ tenth 1600 (by decide) hsamples⟩

end

end Chatlink.Tachyon.Audio
