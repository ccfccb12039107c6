import Chatlink.Lib.Loops

/-!
# Bytes as printable digits

Three bytes are four digits of six bits. The last digit of a shorter rest is filled up with zero bits, and the text
with marks to whole groups of four. Lines of a text have one width.
-/
namespace Base64

open Loops

/-- The digit of six bits: letters, then small letters, figures, and two signs. -/
def digit (i : ℕ) : UInt8 :=
  if i < 26 then UInt8.ofNat (65 + i)
  else if i < 52 then UInt8.ofNat (71 + i)
  else if i < 62 then UInt8.ofNat (i - 4)
  else if i = 62 then 43
  else 47

/-- The mark that fills up a group. -/
def mark : UInt8 := 61

def sextets : List UInt8 → List ℕ
  | [] => []
  | [a] => [a.toNat / 4, a.toNat % 4 * 16]
  | [a, b] => [a.toNat / 4, a.toNat % 4 * 16 + b.toNat / 16, b.toNat % 16 * 4]
  | a :: b :: c :: bs =>
    a.toNat / 4 :: (a.toNat % 4 * 16 + b.toNat / 16) :: (b.toNat % 16 * 4 + c.toNat / 64) :: c.toNat % 64 :: sextets bs

def encode (bs : List UInt8) : List UInt8 :=
  (sextets bs).map digit ++ List.replicate ((3 - bs.length % 3) % 3) mark

/-- A text in lines of `width` digits. -/
def lines (width : ℕ) (eol text : List UInt8) : List UInt8 := (chunks width text).flatMap (· ++ eol)

theorem sextets_lt (bs : List UInt8) : ∀ s ∈ sextets bs, s < 64 := by
  induction bs using sextets.induct with
  | case1 => simp [sextets]
  | case2 a =>
    have ha := a.toNat_lt
    simp only [sextets, List.mem_cons, List.not_mem_nil, or_false]
    omega
  | case3 a b =>
    have ha := a.toNat_lt
    have hb := b.toNat_lt
    simp only [sextets, List.mem_cons, List.not_mem_nil, or_false]
    omega
  | case4 a b c bs ih =>
    have ha := a.toNat_lt
    have hb := b.toNat_lt
    have hc := c.toNat_lt
    simp only [sextets, List.mem_cons]
    rintro s (rfl | rfl | rfl | rfl | h)
    · omega
    · omega
    · omega
    · omega
    · exact ih s h

/-- Line ends that a reader passes over do not matter, wherever they stand. -/
theorem filter_lines {p : UInt8 → Bool} {width : ℕ} (hw : 0 < width) {eol : List UInt8} (heol : ∀ c ∈ eol, p c = false)
    (text : List UInt8) : (lines width eol text).filter p = text.filter p := by
  have hnone : eol.filter p = [] := List.filter_eq_nil_iff.mpr fun c hc => by simp [heol c hc]
  have hrows : ∀ rows : List (List UInt8), (rows.flatMap (· ++ eol)).filter p = rows.flatten.filter p := by
    intro rows
    induction rows with
    | nil => rfl
    | cons r rows ih =>
      rw [List.flatMap_cons, List.filter_append, List.filter_append, hnone, ih, List.flatten_cons, List.filter_append,
        List.append_nil]
  rw [lines, hrows, flatten_chunks hw]

theorem mem_lines {width : ℕ} (hw : 0 < width) {eol text : List UInt8} {c : UInt8} (h : c ∈ lines width eol text) :
    c ∈ text ∨ c ∈ eol := by
  obtain ⟨r, hr, hc⟩ := List.mem_flatMap.mp h
  rcases List.mem_append.mp hc with hc | hc
  · exact .inl (flatten_chunks hw text ▸ List.mem_flatten.mpr ⟨r, hr, hc⟩)
  · exact .inr hc

end Base64
