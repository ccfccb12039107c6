import Chatlink.Lib.Loops
import Chatlink.Tachyon.Template

/-!
# PNG to RGB

The header of a PNG, the filters of its rows undone, and the colors of its pixels. A read past the end
of a list stops the program; an error is reported.
-/
namespace Chatlink.Media

open Loops
open Tachyon (Error Image)

/-- A computation that may report an error, or stop where it reads past an end. -/
abbrev Decoding := ExceptT Error Option

/-- The largest image, in pixels. -/
def MAX_PIXELS : ℕ := 2 ^ 26

/-- An error for a file whose content does not hold together. -/
def bad (what : String) : Error := .media (what ++ ": the file is damaged or not what it claims")

/-- An error for a valid file that is not decoded. -/
def refuse (what : String) : Error := .media (what ++ ", which tachyon does not decode")

/-- What `checkSize` lets through. -/
def Sized (width height : ℕ) : Prop := 0 < width ∧ 0 < height ∧ width * height ≤ MAX_PIXELS

instance (width height : ℕ) : Decidable (Sized width height) := by unfold Sized; infer_instance

def tooLarge (width height : ℕ) : Error :=
  .media ("a " ++ toString width ++ "×" ++ toString height ++ " image: at most " ++ toString MAX_PIXELS ++
    " pixels, none empty")

namespace Png

/-- The depths of a color type. -/
def depths : ℕ → List ℕ
  | 0 => [1, 2, 4, 8, 16]
  | 3 => [1, 2, 4, 8]
  | 2 | 4 | 6 => [8, 16]
  | _ => []

/-- The fields of an accepted header. -/
structure Header where
  width : ℕ
  height : ℕ
  depth : ℕ
  color : ℕ
  valid : depth ∈ depths color
  sized : Sized width height

namespace Header

variable (h : Header)

/-- Samples per pixel. -/
def channels : ℕ :=
  match h.color with
  | 0 | 3 => 1
  | 4 => 2
  | 2 => 3
  | _ => 4

/-- Bytes per row, before the filter byte. -/
def stride : ℕ := (h.width * h.channels * h.depth) ⌈/⌉ 8

/-- Bytes from a pixel to the next, at least one. -/
def bpp : ℕ := (h.channels * h.depth) ⌈/⌉ 8

end Header

/-- Four bytes of a header as a number. -/
def be (d : List UInt8) (i : ℕ) : ℕ := ((d.drop i).take 4).foldl (fun n b => 256 * n + b.toNat) 0

def parseHeader (d : List UInt8) : Except Error Header :=
  if d.length < 13 then .error (bad "a short PNG header")
  else
    let width := be d 0
    let height := be d 4
    let depth := (d.getD 8 0).toNat
    let color := (d.getD 9 0).toNat
    if hvalid : depth ∈ depths color ∧ d.getD 10 0 = 0 ∧ d.getD 11 0 = 0 then
      if d.getD 12 0 ≠ 0 then .error (refuse "an interlaced PNG")
      else if hsized : Sized width height then .ok ⟨width, height, depth, color, hvalid.1, hsized⟩
      else .error (tooLarge width height)
    else .error (bad "a PNG header with an invalid color type, depth, compression or filter")

def paeth (a b c : UInt8) : UInt8 :=
  let p : ℤ := a.toNat + b.toNat - c.toNat
  let pa := |p - a.toNat|
  let pb := |p - b.toNat|
  let pc := |p - c.toNat|
  if pa ≤ pb ∧ pa ≤ pc then a else if pb ≤ pc then b else c

/-- A filter's prediction from the bytes left, above, and above left. -/
def predict (filter a b c : UInt8) : Except Error UInt8 :=
  match filter.toNat with
  | 0 => .ok 0
  | 1 => .ok a
  | 2 => .ok b
  | 3 => .ok (UInt8.ofNat ((a.toNat + b.toNat) / 2))
  | 4 => .ok (paeth a b c)
  | _ => .error (bad "a PNG row filter past 4")

/-- The next byte of a row whose first bytes are done. -/
def unfilterByte (bpp : ℕ) (filter : UInt8) (up src row : List UInt8) (i : ℕ) : Decoding (List UInt8) := do
  let b := up.getD i 0
  let a ← (if bpp ≤ i then row[i - bpp]? else some 0 : Option UInt8)
  let c := if bpp ≤ i then up.getD (i - bpp) 0 else 0
  let x ← (src[i]? : Option UInt8)
  return row ++ [x + (← predict filter a b c)]

/-- One more row. -/
def unfilterRow (h : Header) (raw out : List UInt8) (y : ℕ) : Decoding (List UInt8) := do
  let start := y * (h.stride + 1)
  let filter ← (raw[start]? : Option UInt8)
  let src ← slice raw (start + 1) ((y + 1) * (h.stride + 1))
  let up := if 0 < y then out.drop ((y - 1) * h.stride) else []
  return out ++ (← (List.range h.stride).foldlM (unfilterByte h.bpp filter up src) [])

/-- The rows of `raw` with their filters undone, back to back. -/
def unfilter (h : Header) (raw : List UInt8) : Decoding (List UInt8) :=
  (List.range h.height).foldlM (unfilterRow h raw) []

/-- A sample in eight bits; an index into the palette as it is. -/
def sample (h : Header) (row : List UInt8) (i : ℕ) : Option UInt8 :=
  match h.depth with
  | 8 => row[i]?
  | 16 => row[2 * i]?
  | depth => do
    let v := ((← row[i * depth / 8]?).toNat >>> (8 - depth - i * depth % 8)) &&& (2 ^ depth - 1)
    return UInt8.ofNat (if h.color = 3 then v else v * (255 / (2 ^ depth - 1)))

/-- The color of a pixel: gray repeated, palette entries (black past its end), the alpha dropped. -/
def pixel (h : Header) (palette row : List UInt8) (x : ℕ) : Option (List UInt8) :=
  match h.color with
  | 0 | 4 => do
    let v ← sample h row (x * h.channels)
    return [v, v, v]
  | 3 => do
    let p := (← sample h row x).toNat * 3
    return (slice palette p (p + 3)).getD [0, 0, 0]
  | _ => (List.range 3).mapM fun c => sample h row (x * h.channels + c)

/-- Each pixel's RGB. -/
def toRgb (h : Header) (rows palette : List UInt8) : Option (List UInt8) := do
  let lines ← (chunks h.stride rows).mapM fun row => (List.range h.width).mapM (pixel h palette row)
  return lines.flatten.flatten

/-! ### Headers -/

theorem depth_pos (h : Header) : 0 < h.depth := by
  have hvalid := h.valid
  unfold depths at hvalid
  split at hvalid
  all_goals
    simp only [List.mem_cons, List.not_mem_nil, or_false] at hvalid
    try omega

theorem channels_pos (h : Header) : 0 < h.channels := by
  unfold Header.channels
  split <;> norm_num

/-- A depth is a part of a byte, a byte, or two bytes. -/
theorem depth_cases (h : Header) : h.depth = 16 ∨ h.depth ∣ 8 := by
  have hvalid := h.valid
  unfold depths at hvalid
  split at hvalid
  all_goals
    simp only [List.mem_cons, List.not_mem_nil, or_false] at hvalid
  · rcases hvalid with hd | hd | hd | hd | hd <;> rw [hd] <;> decide
  · rcases hvalid with hd | hd | hd | hd <;> rw [hd] <;> decide
  all_goals rcases hvalid with hd | hd <;> rw [hd] <;> decide

/-- The color types. -/
theorem color_cases (h : Header) : h.color = 0 ∨ h.color = 2 ∨ h.color = 3 ∨ h.color = 4 ∨ h.color = 6 := by
  have hvalid := h.valid
  unfold depths at hvalid
  split at hvalid
  all_goals first | omega | simp at hvalid

theorem depth_of_palette {h : Header} (hc : h.color = 3) : h.depth ≠ 16 := by
  intro hd
  have hvalid := h.valid
  rw [hc, hd] at hvalid
  simp [depths] at hvalid

theorem bpp_pos (h : Header) : 0 < h.bpp := by
  have hpos := Nat.mul_pos (channels_pos h) (depth_pos h)
  rw [Header.bpp, Nat.ceilDiv_eq_add_pred_div]
  omega

theorem stride_pos (h : Header) : 0 < h.stride := by
  have hpos := Nat.mul_pos (Nat.mul_pos h.sized.1 (channels_pos h)) (depth_pos h)
  rw [Header.stride, Nat.ceilDiv_eq_add_pred_div]
  omega

end Png
end Chatlink.Media
