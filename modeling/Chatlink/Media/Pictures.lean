import Chatlink.Lib.BitLists
import Chatlink.Media.Png

/-!
# Pictures in PNG rows

What the format says of a picture: its samples packed into rows, each row replaced by the differences
from a prediction, and the color that the samples of a pixel stand for. The decoder gives back the rows,
whichever filters were chosen, and the color of each pixel.
-/
namespace Chatlink.Media.Png

open BitLists Loops
open Tachyon (Error)

/-! ## Filters -/

inductive Filter where
  | none
  | sub
  | up
  | average
  | paeth
  deriving DecidableEq, Repr

/-- How far a byte is from the plane through the bytes left, above and above left. -/
def distance (a b c x : UInt8) : ℕ := ((a.toNat + b.toNat - c.toNat : ℤ) - x.toNat).natAbs

/-- Of the bytes left, above and above left the one nearest to their plane, the first of them if several are. -/
def nearest (a b c : UInt8) : UInt8 :=
  [b, c].foldl (fun best x => if distance a b c x < distance a b c best then x else best) a

namespace Filter

def code : Filter → UInt8
  | none => 0
  | sub => 1
  | up => 2
  | average => 3
  | paeth => 4

/-- What a byte is expected to be. -/
def predicted : Filter → UInt8 → UInt8 → UInt8 → UInt8
  | none, _, _, _ => 0
  | sub, a, _, _ => a
  | up, _, b, _ => b
  | average, a, b, _ => UInt8.ofNat ((a.toNat + b.toNat) / 2)
  | paeth, a, b, c => nearest a b c

end Filter

/-- The byte a pixel to the left, nothing left of the first. -/
def left (bpp : ℕ) (row : List UInt8) (i : ℕ) : UInt8 := if i < bpp then 0 else row.getD (i - bpp) 0

/-- A row's differences from what is expected. -/
def filterRow (f : Filter) (bpp : ℕ) (up row : List UInt8) : List UInt8 :=
  (List.range row.length).map fun i =>
    row.getD i 0 - f.predicted (left bpp row i) (up.getD i 0) (left bpp up i)

/-- The row before, nothing before the first. -/
def above (rows : List (List UInt8)) (y : ℕ) : List UInt8 := if y = 0 then [] else rows.getD (y - 1) []

/-- One row with its filter's number. -/
def filteredRow (h : Header) (filters : ℕ → Filter) (rows : List (List UInt8)) (y : ℕ) : List UInt8 :=
  (filters y).code :: filterRow (filters y) h.bpp (above rows y) (rows.getD y [])

/-- Rows, each filtered as chosen for it. -/
def filtered (h : Header) (filters : ℕ → Filter) (rows : List (List UInt8)) : List UInt8 :=
  (List.range rows.length).flatMap (filteredRow h filters rows)

theorem paeth_eq_nearest (a b c : UInt8) : paeth a b c = nearest a b c := by
  simp only [paeth, nearest, List.foldl_cons, List.foldl_nil, Int.abs_eq_natAbs, Int.ofNat_le]
  change (if distance a b c a ≤ distance a b c b ∧ distance a b c a ≤ distance a b c c then a
    else if distance a b c b ≤ distance a b c c then b else c) = _
  split_ifs <;> first | rfl | omega

theorem predict_code (f : Filter) (a b c : UInt8) : predict f.code a b c = .ok (f.predicted a b c) := by
  cases f with
  | none => rfl
  | sub => rfl
  | up => rfl
  | average => rfl
  | paeth => exact congrArg Except.ok (paeth_eq_nearest a b c)

@[simp] theorem length_filterRow (f : Filter) (bpp : ℕ) (up row : List UInt8) :
    (filterRow f bpp up row).length = row.length := by simp [filterRow]

/-- A byte is the difference and the prediction from the bytes before it. -/
theorem unfilterByte_filterRow (f : Filter) {bpp : ℕ} (hbpp : 0 < bpp) (up row : List UInt8) {i : ℕ}
    (hi : i < row.length) :
    unfilterByte bpp f.code up (filterRow f bpp up row) (row.take i) i = pure (row.take (i + 1)) := by
  have hx : (filterRow f bpp up row)[i]? =
      some (row[i] - f.predicted (left bpp row i) (up.getD i 0) (left bpp up i)) := by
    simp [filterRow, hi]
  have ha : (if bpp ≤ i then (row.take i)[i - bpp]? else some 0) = some (left bpp row i) := by
    unfold left
    split_ifs with h₁ h₂ h₂
    · omega
    · have hlt : i - bpp < i := by omega
      rw [List.getElem?_take_of_lt hlt, List.getElem?_eq_getElem (hlt.trans hi)]
      simp [List.getD_eq_getElem?_getD, List.getElem?_eq_getElem (hlt.trans hi)]
    · rfl
    · omega
  have hc : (if bpp ≤ i then up.getD (i - bpp) 0 else 0) = left bpp up i := by
    unfold left
    split_ifs <;> first | rfl | omega
  have hsum : ∀ p : UInt8, row.take i ++ [row[i] - p + p] = row.take (i + 1) := by
    intro p
    rw [UInt8.sub_add_cancel, List.take_append_getElem hi]
  unfold unfilterByte
  simp only [ha, hc, hx, predict_code]
  rw [← hsum (f.predicted (left bpp row i) (up.getD i 0) (left bpp up i))]
  rfl

/-- A row comes back. -/
theorem unfilter_filterRow (f : Filter) {bpp : ℕ} (hbpp : 0 < bpp) (up row : List UInt8) :
    (List.range row.length).foldlM (unfilterByte bpp f.code up (filterRow f bpp up row)) [] =
      (pure row : Decoding (List UInt8)) := by
  have hrun := foldlM_range (m := Decoding) _ (fun i => row.take i)
    fun i hi => unfilterByte_filterRow f hbpp up row hi
  simpa using hrun

section Rows

variable (h : Header) (filters : ℕ → Filter) {rows : List (List UInt8)}

theorem above_eq (hrows : ∀ r ∈ rows, r.length = h.stride) {y : ℕ} (hy : y < rows.length) :
    (if 0 < y then ((rows.take y).flatten).drop ((y - 1) * h.stride) else []) = above rows y := by
  unfold above
  rcases Nat.eq_zero_or_pos y with rfl | hpos
  · rfl
  · have hlt : y - 1 < rows.length := by omega
    have hone : y - (y - 1) = 1 := by omega
    have hlast : (rows.take y).drop (y - 1) = [rows.getD (y - 1) []] := by
      rw [List.drop_take, hone, List.drop_eq_getElem_cons hlt, List.take_succ_cons, List.take_zero,
        List.getD_eq_getElem?_getD, List.getElem?_eq_getElem hlt, Option.getD_some]
    rw [if_pos hpos, if_neg hpos.ne', Nat.mul_comm,
      drop_flatten_of_length (fun r hr => hrows r (List.mem_of_mem_take hr)), hlast, List.flatten_singleton]

/-- One row of the filtered data is read, and comes back after the rows before it. -/
theorem unfilterRow_filtered (hrows : ∀ r ∈ rows, r.length = h.stride) {y : ℕ} (hy : y < rows.length) :
    unfilterRow h (filtered h filters rows) (rows.take y).flatten y = pure (rows.take (y + 1)).flatten := by
  have hrow : rows.getD y [] = rows[y] := by
    simp [List.getD_eq_getElem?_getD, List.getElem?_eq_getElem hy]
  have hlen : ∀ z < rows.length, (filteredRow h filters rows z).length = h.stride + 1 := by
    intro z hz
    rw [filteredRow, List.length_cons, length_filterRow, List.getD_eq_getElem?_getD,
      List.getElem?_eq_getElem hz]
    exact congrArg (· + 1) (hrows _ (List.getElem_mem hz))
  -- the data are the rows before, the filter's number, the row, and the rows after
  obtain ⟨after, hraw⟩ : ∃ after, filtered h filters rows =
      ((List.range y).flatMap (filteredRow h filters rows)) ++
        ((filters y).code :: (filterRow (filters y) h.bpp (above rows y) rows[y] ++ after)) := by
    refine ⟨((List.range' (y + 1) (rows.length - (y + 1))).flatMap (filteredRow h filters rows)), ?_⟩
    rw [filtered, range_split hy, List.flatMap_append, List.flatMap_cons, filteredRow, hrow]
    simp
  have hbefore : ((List.range y).flatMap (filteredRow h filters rows)).length = y * (h.stride + 1) := by
    rw [List.flatMap_def, length_flatten_of_length (n := h.stride + 1)]
    · rw [List.length_map, List.length_range, Nat.mul_comm]
    · simp only [List.mem_map, List.mem_range]
      rintro _ ⟨z, hz, rfl⟩
      exact hlen z (hz.trans hy)
  generalize (List.range y).flatMap (filteredRow h filters rows) = before at hraw hbefore
  have hfilter : (filtered h filters rows)[y * (h.stride + 1)]? = some (filters y).code := by
    rw [hraw, ← hbefore, List.getElem?_append_right le_rfl, Nat.sub_self, List.getElem?_cons_zero]
  have hstride : rows[y].length = h.stride := hrows _ (List.getElem_mem hy)
  have hsrc : slice (filtered h filters rows) (y * (h.stride + 1) + 1) ((y + 1) * (h.stride + 1)) =
      some (filterRow (filters y) h.bpp (above rows y) rows[y]) := by
    rw [hraw, ← List.singleton_append, ← List.append_assoc]
    apply slice_append
    · rw [List.length_append, hbefore, List.length_singleton]
    · rw [List.length_append, hbefore, List.length_singleton, length_filterRow, hstride]
      ring
  have hback := unfilter_filterRow (filters y) (bpp_pos h) (above rows y) rows[y]
  rw [hstride] at hback
  have htake : (rows.take y).flatten ++ rows[y] = (rows.take (y + 1)).flatten := by
    rw [← List.take_append_getElem hy, List.flatten_append, List.flatten_singleton]
  unfold unfilterRow
  simp only [hfilter, hsrc, above_eq h hrows hy]
  rw [← htake]
  change ((List.range h.stride).foldlM _ [] >>= fun row => pure (_ ++ row) : Decoding (List UInt8)) = _
  rw [hback, pure_bind]

/-- All rows come back. -/
theorem unfilter_filtered (hheight : rows.length = h.height) (hrows : ∀ r ∈ rows, r.length = h.stride) :
    unfilter h (filtered h filters rows) = pure rows.flatten := by
  have hrun := foldlM_range (m := Decoding) _ (fun y => (rows.take y).flatten)
    fun y (hy : y < rows.length) => unfilterRow_filtered h filters hrows hy
  rw [List.take_length, hheight] at hrun
  exact hrun

end Rows

/-! ## Samples -/

/-- A sample in eight bits: fewer bits are spread over the range, of sixteen the higher eight are kept. -/
def value (depth v : ℕ) : ℕ := if depth = 16 then v / 2 ^ 8 else v * 255 / (2 ^ depth - 1)

/-- An entry of a palette, black past its end. -/
def entry (palette : List UInt8) (k : ℕ) : List UInt8 :=
  if 3 * k + 3 ≤ palette.length then (palette.drop (3 * k)).take 3 else [0, 0, 0]

/-- The color that the samples of a pixel stand for. -/
def color (h : Header) (palette : List UInt8) (px : List ℕ) : List UInt8 :=
  match h.color with
  | 0 | 4 => List.replicate 3 (UInt8.ofNat (value h.depth (px.getD 0 0)))
  | 3 => entry palette (px.getD 0 0)
  | _ => (px.take 3).map fun v => UInt8.ofNat (value h.depth v)

/-- The samples of a picture, row by row and pixel by pixel. -/
structure Picture (h : Header) where
  rows : List (List (List ℕ))
  height : rows.length = h.height
  width : ∀ row ∈ rows, row.length = h.width
  channels : ∀ row ∈ rows, ∀ px ∈ row, px.length = h.channels
  depth : ∀ row ∈ rows, ∀ px ∈ row, ∀ v ∈ px, v < 2 ^ h.depth

namespace Picture

variable {h : Header} (s : Picture h)

/-- Bytes that hold a picture: each row packed, from a new byte on. -/
def PackedAs (bytes : List (List UInt8)) : Prop :=
  List.Forall₂ (fun row bytes => Packs h.depth row.flatten bytes) s.rows bytes

/-- The colors of a picture. -/
def rgb (palette : List UInt8) : List UInt8 := s.rows.flatMap fun row => row.flatMap (color h palette)

end Picture

theorem within_of_ne {h : Header} {samples : List ℕ} {row : List UInt8} (hpack : Packs h.depth samples row)
    (hd : h.depth ≠ 16) {i v : ℕ} (hv : samples[i]? = some v) (hlt : v < 2 ^ h.depth) :
    ∃ b, row[i * h.depth / 8]? = some b ∧
      (b.toNat >>> (8 - h.depth - i * h.depth % 8)) &&& (2 ^ h.depth - 1) = v := by
  rw [Nat.mul_comm i]
  exact hpack.within ((depth_cases h).resolve_left hd) hv hlt

/-- A sample that is a color is read as the format says. -/
theorem sample_color {h : Header} (hc : h.color ≠ 3) {samples : List ℕ} {row : List UInt8}
    (hpack : Packs h.depth samples row) {i v : ℕ} (hv : samples[i]? = some v) (hlt : v < 2 ^ h.depth) :
    sample h row i = some (UInt8.ofNat (value h.depth v)) := by
  unfold sample value
  split
  case _ hd =>
    obtain ⟨b, hb, hbv⟩ := within_of_ne hpack (by omega) hv hlt
    rw [hd] at hb hbv
    have hb8 : b.toNat = v := by
      have hmask := Nat.and_two_pow_sub_one_of_lt_two_pow b.toNat_lt
      simpa [hmask] using hbv
    rw [Nat.mul_div_cancel _ (by norm_num)] at hb
    rw [hb, hd, ← hb8, if_neg (by norm_num)]
    simp
  case _ hd =>
    rw [hd] at hpack hlt
    obtain ⟨b, hb, hbv⟩ := hpack.high hv hlt
    rw [hb, if_pos hd, ← hbv, UInt8.ofNat_toNat]
  case _ h₈ h₁₆ =>
    obtain ⟨b, hb, hbv⟩ := within_of_ne hpack h₁₆ hv hlt
    have hdvd := (depth_cases h).resolve_left h₁₆
    have hscale : v * (255 / (2 ^ h.depth - 1)) = v * 255 / (2 ^ h.depth - 1) := by
      have hle := Nat.le_of_dvd (by norm_num) hdvd
      have hpos := depth_pos h
      interval_cases h.depth <;> omega
    rw [if_neg h₁₆, ← hscale, hb, Option.bind_eq_bind, Option.bind_some, hbv]
    simp only [if_neg hc]
    rfl

/-- A sample that is an index is read as it is. -/
theorem sample_index {h : Header} (hc : h.color = 3) {samples : List ℕ} {row : List UInt8}
    (hpack : Packs h.depth samples row) {i v : ℕ} (hv : samples[i]? = some v) (hlt : v < 2 ^ h.depth) :
    ∃ b, sample h row i = some b ∧ b.toNat = v := by
  have hd := depth_of_palette hc
  obtain ⟨b, hb, hbv⟩ := within_of_ne hpack hd hv hlt
  have hle : 2 ^ h.depth ≤ 2 ^ 8 := by
    have hdvd := (depth_cases h).resolve_left hd
    exact Nat.pow_le_pow_right (by norm_num) (Nat.le_of_dvd (by norm_num) hdvd)
  unfold sample
  split
  case _ h₈ =>
    rw [h₈] at hb hbv
    have hmask := Nat.and_two_pow_sub_one_of_lt_two_pow b.toNat_lt
    rw [Nat.mul_div_cancel _ (by norm_num)] at hb
    exact ⟨b, hb, by simpa [hmask] using hbv⟩
  case _ h₁₆ => exact absurd h₁₆ hd
  case _ =>
    refine ⟨UInt8.ofNat v, ?_, ?_⟩
    · rw [hb, Option.bind_eq_bind, Option.bind_some, hbv]
      simp only [if_pos hc]
      rfl
    · rw [UInt8.toNat_ofNat']
      exact Nat.mod_eq_of_lt (by omega)

/-! ## Pixels -/

theorem slice_entry (palette : List UInt8) (k : ℕ) :
    (slice palette (k * 3) (k * 3 + 3)).getD [0, 0, 0] = entry palette k := by
  unfold slice entry
  rw [Nat.mul_comm k, Nat.add_sub_cancel_left]
  split_ifs <;> first | rfl | omega

/-- A pixel is read as the color its samples stand for. -/
theorem pixel_eq_color {h : Header} (palette : List UInt8) {row : List (List ℕ)} {bytes : List UInt8}
    (hpack : Packs h.depth row.flatten bytes) (hchannels : ∀ px ∈ row, px.length = h.channels)
    (hdepth : ∀ px ∈ row, ∀ v ∈ px, v < 2 ^ h.depth) {x : ℕ} (hx : x < row.length) :
    pixel h palette bytes x = some (color h palette row[x]) := by
  have hlen : row[x].length = h.channels := hchannels _ (List.getElem_mem hx)
  have hlt : ∀ c (hc : c < row[x].length), row[x][c] < 2 ^ h.depth := fun c hc =>
    hdepth _ (List.getElem_mem hx) _ (List.getElem_mem hc)
  have hflat : ∀ c (hc : c < row[x].length), row.flatten[x * h.channels + c]? = some row[x][c] := by
    intro c hc
    have hget := getElem?_flatMap_of_length (f := id) hchannels x (hlen ▸ hc)
    rw [List.flatMap_id, List.getElem?_eq_getElem hx] at hget
    rw [Nat.mul_comm, hget]
    exact List.getElem?_eq_getElem hc
  have hfirst : 0 < row[x].length := hlen ▸ channels_pos h
  have hhead : row[x].getD 0 0 = row[x][0] := by
    rw [List.getD_eq_getElem?_getD, List.getElem?_eq_getElem hfirst, Option.getD_some]
  rcases color_cases h with hc | hc | hc | hc | hc
  case inl | inr.inr.inr.inl =>
    have hv := sample_color (by omega) hpack (hflat 0 hfirst) (hlt 0 hfirst)
    rw [Nat.add_zero] at hv
    simp only [pixel, color, hc, hv, hhead, Option.bind_eq_bind, Option.bind_some]
    rfl
  case inr.inr.inl =>
    have hn : h.channels = 1 := by simp [Header.channels, hc]
    have hindex := hflat 0 hfirst
    rw [hn, Nat.mul_one, Nat.add_zero] at hindex
    obtain ⟨b, hb, hbv⟩ := sample_index hc hpack hindex (hlt 0 hfirst)
    simp only [pixel, color, hc, hhead, hb, ← hbv, Option.bind_eq_bind, Option.bind_some]
    exact congrArg some (slice_entry palette b.toNat)
  case inr.inl | inr.inr.inr.inr =>
    have hn : 3 ≤ row[x].length := by
      rw [hlen]
      simp [Header.channels, hc]
    have hread : ∀ c < 3, sample h bytes (x * h.channels + c) =
        pure (UInt8.ofNat (value h.depth (row[x].getD c 0))) := by
      intro c hc3
      have hcl : c < row[x].length := by omega
      rw [List.getD_eq_getElem?_getD, List.getElem?_eq_getElem hcl, Option.getD_some]
      exact sample_color (by omega) hpack (hflat c hcl) (hlt c hcl)
    have htake : row[x].take 3 = (List.range 3).map fun c => row[x].getD c 0 := by
      apply List.ext_getElem
      · simp [hn]
      · intro c h₁ h₂
        have hcl : c < row[x].length := by
          rw [List.length_take] at h₁
          omega
        simp [List.getD_eq_getElem?_getD, List.getElem?_eq_getElem hcl]
    simp only [pixel, color, hc]
    rw [mapM_range hread, htake, List.map_map]
    rfl

/-- A row gives its pixels' colors. -/
theorem pixels_eq_colors {h : Header} (palette : List UInt8) {row : List (List ℕ)} {bytes : List UInt8}
    (hpack : Packs h.depth row.flatten bytes) (hwidth : row.length = h.width)
    (hchannels : ∀ px ∈ row, px.length = h.channels) (hdepth : ∀ px ∈ row, ∀ v ∈ px, v < 2 ^ h.depth) :
    (List.range h.width).mapM (pixel h palette bytes) = some (row.map (color h palette)) := by
  have hread : ∀ x < h.width, pixel h palette bytes x = pure (color h palette (row.getD x [])) := by
    intro x hx
    rw [← hwidth] at hx
    rw [List.getD_eq_getElem?_getD, List.getElem?_eq_getElem hx, Option.getD_some]
    exact pixel_eq_color palette hpack hchannels hdepth hx
  rw [mapM_range hread]
  apply congrArg some
  apply List.ext_getElem
  · simp [hwidth]
  · intro x h₁ h₂
    rw [List.length_map] at h₂
    simp [List.getD_eq_getElem?_getD, List.getElem?_eq_getElem h₂]

namespace Picture

variable {h : Header} (s : Picture h) {bytes : List (List UInt8)}

/-- A packed row fills the bytes of a row. -/
theorem length_of_packedAs (hbytes : s.PackedAs bytes) : ∀ b ∈ bytes, b.length = h.stride := by
  intro b hb
  obtain ⟨i, hi, rfl⟩ := List.mem_iff_getElem.1 hb
  obtain ⟨hlen, hpack⟩ := List.forall₂_iff_get.1 hbytes
  have hi' : i < s.rows.length := hlen ▸ hi
  have hrow := List.getElem_mem hi'
  have hflat : s.rows[i].flatten.length = h.channels * h.width := by
    rw [length_flatten_of_length (s.channels _ hrow), s.width _ hrow]
  have hbytes := (hpack i hi' hi).length
  simp only [List.get_eq_getElem] at hbytes
  rw [hbytes, hflat, Header.stride, Nat.ceilDiv_eq_add_pred_div]
  congr 1
  ring_nf
  omega

theorem toRgb_eq_rgb (hbytes : s.PackedAs bytes) (palette : List UInt8) :
    toRgb h bytes.flatten palette = some (s.rgb palette) := by
  have hlines : bytes.mapM (fun row => (List.range h.width).mapM (pixel h palette row)) =
      some (s.rows.map fun row => row.map (color h palette)) := by
    have hwidth := s.width
    have hchannels := s.channels
    have hdepth := s.depth
    unfold PackedAs at hbytes
    generalize s.rows = rows at hbytes hwidth hchannels hdepth ⊢
    induction hbytes with
    | nil => rfl
    | @cons row b rows bytes hpack _ ih =>
      have hrow := pixels_eq_colors palette hpack (hwidth row (by simp)) (hchannels row (by simp))
        (hdepth row (by simp))
      have hrest := ih (fun r hr => hwidth r (by simp [hr])) (fun r hr => hchannels r (by simp [hr]))
        (fun r hr => hdepth r (by simp [hr]))
      simp [List.mapM_cons, hrow, hrest]
  unfold toRgb
  rw [chunks_flatten (stride_pos h) (s.length_of_packedAs hbytes), hlines]
  simp [rgb, List.flatMap_def, List.flatten_flatten, List.map_map, Function.comp_def]

end Picture

/-- Whatever the header, the picture and the filters, the packed rows come back from their filtered data,
and the colors are those the samples stand for, whatever the bits to spare. -/
theorem rows_come_back (h : Header) (palette : List UInt8) (s : Picture h) {bytes : List (List UInt8)}
    (hbytes : s.PackedAs bytes) (filters : ℕ → Filter) :
    unfilter h (filtered h filters bytes) = pure bytes.flatten ∧
      toRgb h bytes.flatten palette = some (s.rgb palette) := by
  have hheight : bytes.length = h.height := by
    rw [← s.height]
    exact (List.Forall₂.length_eq hbytes).symm
  exact ⟨unfilter_filtered h filters hheight (s.length_of_packedAs hbytes), s.toRgb_eq_rgb hbytes palette⟩

/-- Three gray pixels of four bits in two rows, four bits of each row to spare. -/
def gray : Header := ⟨3, 2, 4, 0, by decide, by decide⟩

def grayPicture : Picture gray where
  rows := [[[1], [15], [7]], [[0], [2], [9]]]
  height := rfl
  width := by decide
  channels := by decide
  depth := by decide

theorem rows_come_back_gray :
    unfilter gray (filtered gray (fun y => if y = 0 then .sub else .paeth) [[0x1F, 0x7A], [0x02, 0x91]]) =
        pure [0x1F, 0x7A, 0x02, 0x91] ∧
      toRgb gray [0x1F, 0x7A, 0x02, 0x91] [] = some (grayPicture.rgb []) :=
  @rows_come_back gray [] grayPicture [[0x1F, 0x7A], [0x02, 0x91]] (.cons (by decide) (.cons (by decide) .nil)) fun y => if y = 0 then .sub else .paeth

example : grayPicture.rgb [] = [17, 17, 17, 255, 255, 255, 119, 119, 119, 0, 0, 0, 34, 34, 34, 153, 153, 153] := by
  decide

end Chatlink.Media.Png
