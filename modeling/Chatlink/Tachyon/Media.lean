import Mathlib
import Chatlink.Lib.Runs
import Chatlink.Tachyon.Template

/-!
# Images and clips

The towers make soft tokens of images and clips, some rows of a width; the prompt has a run
of slots for each. How many rows there are is computed in the template and again in the tower,
from the size of an image and from the length of a clip once it is resampled.
-/
namespace Chatlink.Tachyon

open Serve (Role F32)

/-- A vision tower: the width of a soft token, the most patches it takes and the bytes it holds;
the values it computes, and the images on which its passes go through. -/
structure Vision where
  width : ℕ
  cap : ℕ
  bytes : ℕ
  value : Image → ℕ → ℕ → F32
  passes : Image → Bool

/-- An audio tower. -/
structure Tower where
  width : ℕ
  bytes : ℕ
  value : Audio → ℕ → F32
  passes : Audio → Bool

namespace Vision

variable (squares : Squares) (v : Vision)

/-- The soft tokens of an image, row by row. -/
def softTokens (image : Image) (budget : ℕ) : Except Error (List F32) := do
  let size ← image.fittedSize squares budget
  let n := size.1 / PATCH * (size.2 / PATCH)
  if v.cap < n then
    .error (.media (toString budget ++ " soft tokens: this tower holds " ++
      toString (v.cap / (POOL * POOL)) ++ " at most"))
  else if v.passes image then
    .ok ((List.range (n / (POOL * POOL) * v.width)).map (v.value image budget))
  else .error .cuda

end Vision

/-- Samples of a clip at another rate. -/
def Audio.resampled (audio : Audio) (rate : ℕ) : Except Error ℕ :=
  let g := Nat.gcd audio.rate rate
  if rate = audio.rate then .ok audio.samples.length
  else if 4096 < rate / g then
    .error (.media ("resampling from " ++ toString audio.rate ++ " Hz to " ++ toString rate ++
      " Hz, which tachyon does not decode"))
  else .ok ((audio.samples.length * (rate / g)) ⌈/⌉ (audio.rate / g))

namespace Tower

variable (t : Tower)

def softTokens (audio : Audio) : Except Error (List F32) := do
  let samples ← audio.resampled Audio.SAMPLE_RATE
  let n := Audio.softTokens samples
  if n = 0 then
    .error (.media (toString samples ++ " samples of audio: too short for a soft token"))
  else if t.passes audio then .ok ((List.range (n * t.width)).map (t.value audio))
  else .error .cuda

end Tower

/-- The media the template shows: a user's, and a system message's after the first. -/
def shown (messages : List Message) : List Medium :=
  (messages.zipIdx.filter fun m => m.1.role = .user || m.1.role = .system && 0 < m.2).flatMap
    fun m => m.1.images.map .image ++ m.1.audio.map .clip

/-- Where in a prompt the soft tokens of each medium go. -/
def slots (prompt : List ℕ) (marks : Option ℕ × Option ℕ) (soft : List (List F32)) (width : ℕ) :
    Except Error (List (ℕ × List F32)) :=
  let runs := Runs.runs (fun t => marks.1 = some t || marks.2 = some t) prompt
  if runs.length ≠ soft.length ∨ (runs.zip soft).any fun r => r.1.2 * width ≠ r.2.length then
    .error (.media (toString runs.length ++ " images and clips in the prompt, but " ++
      toString soft.length ++ " sets of soft tokens"))
  else .ok ((runs.zip soft).map fun r => (r.1.1, r.2))

/-! ### The counts agree -/

variable {squares : Squares}

/-- The sides of a fitted image are whole squares. -/
theorem fittedSize_squares {image : Image} {budget : ℕ} {size : ℕ × ℕ}
    (h : image.fittedSize squares budget = .ok size) :
    POOL * PATCH ∣ size.1 ∧ POOL * PATCH ∣ size.2 := by
  unfold Image.fittedSize at h
  dsimp only at h
  have hmin : ∀ a b : ℕ, POOL * PATCH ∣ min (a * (POOL * PATCH)) (b * (POOL * PATCH)) := by
    intro a b
    rcases min_choice (a * (POOL * PATCH)) (b * (POOL * PATCH)) with hm | hm <;> rw [hm]
    · exact Dvd.intro_left a rfl
    · exact Dvd.intro_left b rfl
  split at h
  · cases h
  · split at h
    · cases h
    · split at h
      · obtain rfl := Except.ok.inj h
        exact ⟨hmin _ _, dvd_rfl⟩
      · split at h
        · obtain rfl := Except.ok.inj h
          exact ⟨dvd_rfl, hmin _ _⟩
        · obtain rfl := Except.ok.inj h
          exact ⟨Dvd.intro_left _ rfl, Dvd.intro_left _ rfl⟩

/-- Squares of patches, counted as the tower does and as the template does. -/
theorem pool_squares {w h : ℕ} (hw : POOL * PATCH ∣ w) (hh : POOL * PATCH ∣ h) :
    w / PATCH * (h / PATCH) / (POOL * POOL) = w / (PATCH * POOL) * (h / (PATCH * POOL)) := by
  obtain ⟨a, rfl⟩ := hw
  obtain ⟨b, rfl⟩ := hh
  have hpatch : ∀ c, POOL * PATCH * c / PATCH = POOL * c := by
    intro c
    rw [Nat.mul_comm POOL PATCH, Nat.mul_assoc, Nat.mul_div_cancel_left _ (by decide)]
  have hboth : ∀ c, POOL * PATCH * c / (PATCH * POOL) = c := by
    intro c
    rw [Nat.mul_comm POOL PATCH, Nat.mul_div_cancel_left _ (by decide)]
  rw [hpatch, hpatch, hboth, hboth, Nat.mul_mul_mul_comm, Nat.mul_div_cancel_left _ (by decide)]

/-- What a vision tower returns has the rows the template promises. -/
theorem length_vision {v : Vision} {image : Image} {budget : ℕ} {s : List F32}
    (h : v.softTokens squares image budget = .ok s) :
    ∃ n, image.softTokens squares budget = .ok n ∧ s.length = n * v.width := by
  unfold Vision.softTokens at h
  cases hsize : image.fittedSize squares budget with
  | error e =>
    rw [hsize] at h
    cases h
  | ok size =>
    obtain ⟨hw, hh⟩ := fittedSize_squares hsize
    rw [hsize] at h
    simp only [bind, Except.bind] at h
    split at h
    · cases h
    · split at h
      · obtain rfl := Except.ok.inj h
        refine ⟨_, by rw [Image.softTokens, hsize]; rfl, ?_⟩
        rw [List.length_map, List.length_range, pool_squares hw hh]
      · cases h

/-- A ratio in lowest terms rounds as the ratio does. -/
theorem ceilDiv_gcd (n rate target : ℕ) (hrate : 0 < rate) :
    (n * (target / Nat.gcd rate target)) ⌈/⌉ (rate / Nat.gcd rate target) = (n * target) ⌈/⌉ rate := by
  have hg : 0 < Nat.gcd rate target := Nat.gcd_pos_of_pos_left _ hrate
  obtain ⟨a, ha⟩ := Nat.gcd_dvd_left rate target
  obtain ⟨b, hb⟩ := Nat.gcd_dvd_right rate target
  generalize Nat.gcd rate target = g at ha hb hg ⊢
  subst ha hb
  have ha : 0 < a := Nat.pos_of_mul_pos_left hrate
  rw [Nat.mul_div_cancel_left _ hg, Nat.mul_div_cancel_left _ hg]
  refine eq_of_forall_ge_iff fun c => ?_
  rw [ceilDiv_le_iff_le_mul ha, ceilDiv_le_iff_le_mul hrate, Nat.mul_left_comm, Nat.mul_assoc,
    Nat.mul_le_mul_left_iff hg]

/-- What an audio tower returns has the rows the template promises, and at least one. -/
theorem length_audio {t : Tower} {audio : Audio} {s : List F32}
    (h : t.softTokens audio = .ok s) : 0 < audio.count ∧ s.length = audio.count * t.width := by
  have hcount : ∀ {n : ℕ}, 0 < audio.rate → audio.resampled Audio.SAMPLE_RATE = .ok n →
      audio.count = Audio.softTokens n := by
    intro n hrate hn
    unfold Audio.resampled at hn
    dsimp only at hn
    rw [Audio.count, max_eq_left (Nat.one_le_of_lt hrate)]
    split at hn
    · next hsame =>
      obtain rfl := Except.ok.inj hn
      rw [← hsame]
      congr 1
      refine eq_of_forall_ge_iff fun c => ?_
      rw [ceilDiv_le_iff_le_mul (by decide), Nat.mul_comm, Nat.mul_le_mul_left_iff (by decide)]
    · split at hn
      · cases hn
      · obtain rfl := Except.ok.inj hn
        rw [ceilDiv_gcd _ _ _ hrate]
  unfold Tower.softTokens at h
  cases hn : audio.resampled Audio.SAMPLE_RATE with
  | error e =>
    rw [hn] at h
    cases h
  | ok n =>
    rw [hn] at h
    simp only [bind, Except.bind] at h
    split at h
    · cases h
    · next hzero =>
      have hrate : 0 < audio.rate := by
        -- a clip without a rate has no samples at any other
        by_contra hrate
        obtain hrate := Nat.eq_zero_of_not_pos hrate
        simp only [Audio.resampled, hrate, Nat.gcd_zero_left, Nat.zero_div, ceilDiv_zero] at hn
        obtain rfl : 0 = n := Except.ok.inj hn
        exact hzero rfl
      split at h
      · obtain rfl := Except.ok.inj h
        rw [hcount hrate hn, List.length_map, List.length_range]
        exact ⟨Nat.pos_of_ne_zero hzero, rfl⟩
      · cases h

end Chatlink.Tachyon
