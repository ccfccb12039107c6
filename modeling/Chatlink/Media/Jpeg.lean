import Chatlink.Lib.BitLists
import Chatlink.Lib.Canonical
import Chatlink.Media.Png

/-!
# The entropy-coded bits of a JPEG

Codes of up to nine bits are found in a table by the next nine bits, longer ones by the largest code of
each length. The bits come from bytes in which `0xFF00` stands for `0xFF`; from a marker or the end on they
are zeros.
-/
namespace Chatlink.Media.Jpeg

open BitLists Canonical Loops

/-! ## Tables -/

/-- A Huffman table: value and length of the codes of up to nine bits (0 for longer), and for each length
the largest code and how far the values are from the codes. -/
structure Table where
  fast : List ℕ
  maxcode : List ℤ
  offset : List ℤ
  values : List UInt8
  deriving DecidableEq, Repr

/-- A part of a list, if it has that part, made one value. -/
def fill (xs : List ℕ) (i j v : ℕ) : Option (List ℕ) :=
  if i ≤ j ∧ j ≤ xs.length then some (xs.take i ++ List.replicate (j - i) v ++ xs.drop j) else none

/-- A table being built: the next code, and the place of its value. -/
structure Building where
  fast : List ℕ
  maxcode : List ℤ
  offset : List ℤ
  code : ℕ
  k : ℕ

/-- The table with the next code, of length `l`. -/
def newFast (values : List UInt8) (l : ℕ) (b : Building) : Option (List ℕ) :=
  match values[b.k]? with
  | some v =>
    if l ≤ 9 then
      let first := b.code <<< (9 - l)
      fill b.fast first (first + 1 <<< (9 - l)) (v.toNat <<< 8 ||| l)
    else some b.fast
  | none => some b.fast

/-- One more code of length `l`. -/
def newCode (values : List UInt8) (l : ℕ) (b : Building) : Option Building := do
  return { b with fast := ← newFast values l b, code := b.code + 1, k := b.k + 1 }

/-- The codes of one more length. -/
def newLength (counts values : List UInt8) (b : Building) (i : ℕ) : Option Building := do
  let l := i + 1
  let n := (← counts[i]?).toNat
  let b := { b with offset := b.offset.set l (b.k - b.code) }
  let b ← (List.range n).foldlM (fun b _ => newCode values l b) b
  let maxcode := if 0 < n then b.maxcode.set l (b.code - 1) else b.maxcode
  return { b with maxcode, code := b.code <<< 1 }

/-- The table for how many codes there are of each length, and their values. -/
def Table.new (counts values : List UInt8) : Option Table := do
  let b ← (List.range 16).foldlM (newLength counts values)
    ⟨List.replicate 512 0, List.replicate 17 (-1), List.replicate 17 0, 0, 0⟩
  return ⟨b.fast, b.maxcode, b.offset, values⟩

/-! ## Bits -/

/-- Where a scan is being read: the bits at hand are the `n` highest of `buf`. -/
structure Bits where
  data : List UInt8
  at_ : ℕ
  buf : ℕ
  n : ℕ
  stop : Option ℕ
  deriving DecidableEq, Repr

namespace Bits

/-- The next byte, zero from a marker or the end on, and where the one after it is. -/
@[grind =] def next (s : Bits) : ℕ × ℕ × Option ℕ :=
  if s.stop.isNone ∧ s.at_ < s.data.length then
    let b := s.data.getD s.at_ 0
    if b ≠ 0xFF then (b.toNat, s.at_ + 1, none)
    else if s.data[s.at_ + 1]? = some 0 then (b.toNat, s.at_ + 2, none)
    else (0, s.at_, some s.at_)
  else (0, s.at_, s.stop)

/-- One more byte at hand. -/
@[grind =] def byte (s : Bits) : Bits :=
  let (b, at_, stop) := s.next
  { s with at_, stop, buf := s.buf ||| b <<< (24 - s.n), n := s.n + 8 }

/-- Bytes until more than 24 bits are at hand. -/
@[grind =] def more (s : Bits) : Bits := if s.n ≤ 24 then more s.byte else s
termination_by 25 - s.n
decreasing_by
  simp only [byte]
  omega

/-- The next `k` bits, and what is at hand then. -/
def peek (s : Bits) (k : ℕ) : ℕ × Bits :=
  let s := s.more
  (s.buf >>> (32 - k), s)

def skip (s : Bits) (k : ℕ) : Bits := { s with buf := s.buf <<< k % 2 ^ 32, n := s.n - k }

def take (s : Bits) (k : ℕ) : ℕ × Bits :=
  if k = 0 then (0, s)
  else
    let (v, s) := s.peek k
    (v, s.skip k)

/-- At a restart: the bits left dropped, the `RSTn` marker passed if it is there. -/
def restart (s : Bits) : Bits :=
  let at_ := s.stop.getD s.at_
  let s := { s with buf := 0, n := 0 }
  if s.data[at_]? = some 0xFF ∧ (s.data[at_ + 1]?).any fun m => 0xD0 ≤ m ∧ m ≤ 0xD7 then
    { s with at_ := at_ + 2, stop := none }
  else s

/-- The lengths the nine bits are too short for. -/
@[grind =] def long (t : Table) (code : ℕ) (s : Bits) : List ℕ → Option (UInt8 × Bits)
  | [] => some (0, s.skip 16)
  | l :: ls => do
    let c := code >>> (16 - l)
    if (c : ℤ) ≤ (← t.maxcode[l]?) then
      let place := c + (← t.offset[l]?)
      return (if 0 ≤ place then t.values.getD place.toNat 0 else 0, s.skip l)
    else long t code s ls

/-- The next symbol. -/
@[grind =] def decode (s : Bits) (t : Table) : Option (UInt8 × Bits) := do
  let (nine, s) := s.peek 9
  let e ← t.fast[nine]?
  if e ≠ 0 then return (UInt8.ofNat (e >>> 8), s.skip (e &&& 0xFF))
  let (code, s) := s.peek 16
  long t code s [10, 11, 12, 13, 14, 15, 16]

end Bits

/-! ## The bits of a scan -/

/-- The bytes of a scan, up to its marker. -/
@[grind =] def unstuff : List UInt8 → List UInt8
  | [] => []
  | b :: bs =>
    if b ≠ 0xFF then b :: unstuff bs
    else
      match bs with
      | 0 :: bs => b :: unstuff bs
      | _ => []

theorem unstuff_of_ne {b : UInt8} (h : b ≠ 0xFF) (bs : List UInt8) : unstuff (b :: bs) = b :: unstuff bs := by
  rw [unstuff.eq_def]
  exact if_pos h

theorem unstuff_stuffed (bs : List UInt8) : unstuff (0xFF :: 0 :: bs) = 0xFF :: unstuff bs := by
  rw [unstuff.eq_def]
  rfl

theorem unstuff_marker {bs : List UInt8} (h : bs[0]? ≠ some 0) : unstuff (0xFF :: bs) = [] := by
  rw [unstuff.eq_def]
  simp only [ne_eq, not_true_eq_false, if_false]
  split
  · exact absurd rfl h
  · rfl

/-- A list of bits as a stream that goes on with zeros. -/
def stream (bits : List Bool) (i : ℕ) : Bool := bits.getD i false

namespace Bits

/-- What is read after the bits at hand. -/
def rest (s : Bits) : List UInt8 := if s.stop.isSome then [] else unstuff (s.data.drop s.at_)

/-- The bits from here on. -/
def ahead (s : Bits) (i : ℕ) : Bool :=
  if i < s.n then s.buf.testBit (31 - i) else stream (ofBytes s.rest) (i - s.n)

/-- What holds of the bits at hand: the ones below them are zeros. -/
structure Sound (s : Bits) : Prop where
  room : s.n ≤ 32
  word : s.buf < 2 ^ 32
  low : ∀ i, i < 32 - s.n → s.buf.testBit i = false

end Bits

/-! ## The table -/

/-- How many codes there are of a length. -/
def countOf (counts : List UInt8) (l : ℕ) : ℕ := if l = 0 then 0 else (counts.getD (l - 1) 0).toNat

theorem getElem?_fill {xs : List ℕ} {i j v : ℕ} (hij : i ≤ j) (hj : j ≤ xs.length) (x : ℕ) :
    (xs.take i ++ List.replicate (j - i) v ++ xs.drop j)[x]? =
      if i ≤ x ∧ x < j then some v else xs[x]? := by
  have hi : (xs.take i).length = i := by
    rw [List.length_take]
    omega
  rcases lt_or_ge x i with hlt | hge
  · rw [List.append_assoc, List.getElem?_append_left (by omega), List.getElem?_take_of_lt hlt, if_neg (by omega)]
  · rcases lt_or_ge x j with hlt | hge'
    · rw [List.append_assoc, List.getElem?_append_right (by omega), hi,
        List.getElem?_append_left (by rw [List.length_replicate]; omega),
        List.getElem?_replicate_of_lt (by omega), if_pos ⟨hge, hlt⟩]
    · rw [List.getElem?_append_right (by rw [List.length_append, hi, List.length_replicate]; omega),
        List.length_append, hi, List.length_replicate, List.getElem?_drop, if_neg (by omega)]
      congr 1
      omega

section Table

variable (counts values : List UInt8)

/-- What stands in the table for the `m`th code of length `j`. -/
def entry (j m : ℕ) : ℕ := (values.getD (offset (countOf counts) j + m) 0).toNat <<< 8 ||| j

/-- The `m`th code of length `j` is among the first `i` codes of length `l` or the shorter ones, and short enough
for the table. -/
def Done (l i j m : ℕ) : Prop := 0 < j ∧ j ≤ 9 ∧ (j < l ∧ m < countOf counts j ∨ j = l ∧ m < i)

/-- A table with the codes shorter than `l`, and `i` codes of length `l`. -/
structure Built (l i : ℕ) (b : Building) : Prop where
  code : b.code = first (countOf counts) l + i
  k : b.k = offset (countOf counts) l + i
  length : b.fast.length = 512
  codes : ∀ j m x, Done counts l i j m → x / 2 ^ (9 - j) = first (countOf counts) j + m →
    b.fast[x]? = some (entry counts values j m)
  empty : ∀ x, x < 512 → (∀ j m, Done counts l i j m → x / 2 ^ (9 - j) ≠ first (countOf counts) j + m) →
    b.fast[x]? = some 0

/-- The bounds of the codes of up to `i` bits. -/
structure Bounded (i : ℕ) (b : Building) : Prop where
  maxcode : ∀ j, j < 17 → b.maxcode[j]? =
    some (if j ≤ i ∧ 0 < countOf counts j then (last (countOf counts) j : ℤ) - 1 else -1)
  offset : ∀ j, j < 17 → b.offset[j]? =
    some (if j ≤ i then (offset (countOf counts) j : ℤ) - first (countOf counts) j else 0)

variable {counts values}

/-- The codes of one length that are in the table already are not the next code, and shorter ones do not begin it. -/
theorem Done.ne {l i j m x : ℕ} (h : Done counts l i j m) (hl : l ≤ 9)
    (hx : x / 2 ^ (9 - j) = first (countOf counts) j + m) : x / 2 ^ (9 - l) ≠ first (countOf counts) l + i := by
  obtain ⟨-, -, ⟨hlt, hm⟩ | ⟨rfl, hm⟩⟩ := h
  · have hlast : x / 2 ^ (9 - l) / 2 ^ (l - j) < last (countOf counts) j := by
      rw [Nat.div_div_eq_div_mul, ← pow_add, show 9 - l + (l - j) = 9 - j by omega, hx, last]
      omega
    have hfirst := lt_first hlt hlast
    omega
  · omega

/-- The next code takes the numbers that begin with it, and leaves the others. -/
theorem newFast_eq (hkraft : weight (countOf counts) 16 ≤ 2 ^ 16)
    (hvalues : values.length = offset (countOf counts) 17) {l i : ℕ} (hl : l ≤ 16)
    (hi : i < countOf counts l) {b : Building} (hb : Built counts values l i b) :
    ∃ fast, newFast values l b = some fast ∧ fast.length = 512 ∧
      ∀ x, fast[x]? = if l ≤ 9 ∧ x / 2 ^ (9 - l) = first (countOf counts) l + i then
        some (entry counts values l i) else b.fast[x]? := by
  have hk : b.k < values.length := by
    have hmono : offset (countOf counts) (l + 1) ≤ offset (countOf counts) 17 := offset_mono (by omega)
    rw [hb.k, hvalues]
    rw [offset] at hmono
    omega
  have hv : values[b.k]? = some values[b.k] := List.getElem?_eq_getElem hk
  have hentry : values[b.k].toNat <<< 8 ||| l = entry counts values l i := by
    rw [entry, ← hb.k, List.getD_eq_getElem?_getD, hv, Option.getD_some]
  unfold newFast
  rw [hv]
  rcases le_or_gt l 9 with h9 | h9
  · have hstart : b.code <<< (9 - l) = (first (countOf counts) l + i) * 2 ^ (9 - l) := by
      rw [Nat.shiftLeft_eq, hb.code]
    have hend : b.code <<< (9 - l) + 1 <<< (9 - l) = (first (countOf counts) l + i + 1) * 2 ^ (9 - l) := by
      rw [hstart, Nat.shiftLeft_eq]
      ring
    have hroom : b.code <<< (9 - l) + 1 <<< (9 - l) ≤ b.fast.length := by
      have hlast := last_le hkraft hl
      have hle : first (countOf counts) l + i + 1 ≤ 2 ^ l := by
        rw [last] at hlast
        omega
      calc b.code <<< (9 - l) + 1 <<< (9 - l) = (first (countOf counts) l + i + 1) * 2 ^ (9 - l) := hend
        _ ≤ 2 ^ l * 2 ^ (9 - l) := Nat.mul_le_mul_right _ hle
        _ = b.fast.length := by rw [← pow_add, Nat.add_sub_of_le h9, hb.length]; norm_num
    have hle : b.code <<< (9 - l) ≤ b.code <<< (9 - l) + 1 <<< (9 - l) := Nat.le_add_right _ _
    have hin : ∀ x, b.code <<< (9 - l) ≤ x ∧ x < b.code <<< (9 - l) + 1 <<< (9 - l) ↔
        l ≤ 9 ∧ x / 2 ^ (9 - l) = first (countOf counts) l + i := by
      intro x
      have hpos : 0 < 2 ^ (9 - l) := by positivity
      rw [hend, hstart, Nat.div_eq_iff hpos, Nat.succ_mul]
      omega
    simp only [if_pos h9, fill, if_pos (And.intro hle hroom), hentry]
    refine ⟨_, rfl, ?_, fun x => ?_⟩
    · have hlen := hb.length
      simp only [List.length_append, List.length_take, List.length_replicate, List.length_drop]
      omega
    · rw [getElem?_fill hle hroom]
      simp only [hin]
  · refine ⟨b.fast, by simp [Nat.not_le.2 h9], hb.length, fun x => ?_⟩
    rw [if_neg fun h => absurd h.1 (Nat.not_le.2 h9)]

theorem newCode_built (hkraft : weight (countOf counts) 16 ≤ 2 ^ 16)
    (hvalues : values.length = offset (countOf counts) 17) {l i : ℕ} (hl₀ : 0 < l) (hl : l ≤ 16)
    (hi : i < countOf counts l) {b : Building} (hb : Built counts values l i b) :
    ∃ b', newCode values l b = some b' ∧ Built counts values l (i + 1) b' ∧
      b'.maxcode = b.maxcode ∧ b'.offset = b.offset := by
  obtain ⟨fast, hfast, hlength, hget⟩ := newFast_eq hkraft hvalues hl hi hb
  refine ⟨{ b with fast, code := b.code + 1, k := b.k + 1 }, by simp [newCode, hfast], ?_, rfl, rfl⟩
  refine ⟨by simp [hb.code]; omega, by simp [hb.k]; omega, hlength, fun j m x hdone hx => ?_, fun x hx hno => ?_⟩
  · obtain ⟨hj₀, hj, hcode⟩ := hdone
    rw [hget]
    by_cases hnew : j = l ∧ m = i
    · obtain ⟨rfl, rfl⟩ := hnew
      rw [if_pos ⟨hj, hx⟩]
    · have hold : Done counts l i j m := ⟨hj₀, hj, by omega⟩
      rw [if_neg fun h => hold.ne h.1 hx h.2]
      exact hb.codes j m x hold hx
  · rw [hget, if_neg fun h => hno l i ⟨hl₀, h.1, Or.inr ⟨rfl, Nat.lt_succ_self i⟩⟩ h.2]
    apply hb.empty x hx
    rintro j m ⟨hj₀, hj, hcode⟩
    exact hno j m ⟨hj₀, hj, by omega⟩

/-- The codes of one more length. -/
theorem newLength_built (hcounts : counts.length = 16) (hkraft : weight (countOf counts) 16 ≤ 2 ^ 16)
    (hvalues : values.length = offset (countOf counts) 17) {i : ℕ} (hi : i < 16) {b : Building}
    (hb : Built counts values (i + 1) 0 b) (hbound : Bounded counts i b) :
    ∃ b', newLength counts values b i = some b' ∧ Built counts values (i + 2) 0 b' ∧ Bounded counts (i + 1) b' := by
  have hn : counts[i]? = some (counts.getD i 0) := by
    rw [List.getD_eq_getElem?_getD, List.getElem?_eq_getElem (by omega), Option.getD_some]
  have hcount : (counts.getD i 0).toNat = countOf counts (i + 1) := by simp [countOf]
  -- the codes of the length, one after the other
  obtain ⟨c, hrun, hc, hmax, hoff⟩ := foldlM_range_of (m := Option) (fun b _ => newCode values (i + 1) b)
    (P := fun m c => Built counts values (i + 1) m c ∧ c.maxcode = b.maxcode ∧
      c.offset = b.offset.set (i + 1) (b.k - b.code))
    (s := { b with offset := b.offset.set (i + 1) (b.k - b.code) }) (n := countOf counts (i + 1))
    ⟨⟨hb.code, hb.k, hb.length, hb.codes, hb.empty⟩, rfl, rfl⟩ (by
      rintro m hm c ⟨hc, hmax, hoff⟩
      obtain ⟨c', hnew, hc', hmax', hoff'⟩ := newCode_built hkraft hvalues (Nat.succ_pos i) (by omega) hm hc
      exact ⟨c', hnew, hc', hmax'.trans hmax, hoff'.trans hoff⟩)
  have hnew : newLength counts values b i = some { c with
      maxcode := if 0 < countOf counts (i + 1) then c.maxcode.set (i + 1) (c.code - 1) else c.maxcode
      code := c.code <<< 1 } := by
    unfold newLength
    simp only [hn, hcount, Option.bind_eq_bind, Option.bind_some]
    rw [hrun]
    rfl
  have hdone : ∀ j m, Done counts (i + 2) 0 j m ↔ Done counts (i + 1) (countOf counts (i + 1)) j m := by
    intro j m
    unfold Done
    constructor
    · rintro ⟨hj₀, hj, ⟨hlt, hm⟩ | ⟨-, hm⟩⟩
      · rcases Nat.lt_succ_iff_lt_or_eq.1 hlt with hlt | rfl
        · exact ⟨hj₀, hj, Or.inl ⟨hlt, hm⟩⟩
        · exact ⟨hj₀, hj, Or.inr ⟨rfl, hm⟩⟩
      · omega
    · rintro ⟨hj₀, hj, ⟨hlt, hm⟩ | ⟨rfl, hm⟩⟩
      · exact ⟨hj₀, hj, Or.inl ⟨by omega, hm⟩⟩
      · exact ⟨hj₀, hj, Or.inl ⟨by omega, hm⟩⟩
  refine ⟨_, hnew, ⟨?_, ?_, hc.length, ?_, ?_⟩, ?_, ?_⟩
  · change c.code <<< 1 = _
    rw [hc.code, Nat.shiftLeft_eq, pow_one, Nat.mul_comm]
    rfl
  · exact hc.k
  · intro j m x h hx
    exact hc.codes j m x ((hdone j m).1 h) hx
  · intro x hx hno
    exact hc.empty x hx fun j m h => hno j m ((hdone j m).2 h)
  · intro j hj
    have hold := hbound.maxcode j hj
    have hlen : i + 1 < b.maxcode.length := by
      have hlast := hbound.maxcode (i + 1) (by omega)
      exact (List.getElem?_eq_some_iff.1 hlast).1
    change (if 0 < countOf counts (i + 1) then c.maxcode.set (i + 1) (c.code - 1) else c.maxcode)[j]? = _
    rw [hmax]
    rcases eq_or_ne j (i + 1) with rfl | hne
    · by_cases hpos : 0 < countOf counts (i + 1)
      · rw [if_pos hpos, if_pos ⟨le_rfl, hpos⟩, List.getElem?_set_self hlen, hc.code, last]
      · rw [if_neg hpos, if_neg fun h => hpos h.2, hold, if_neg (by omega)]
    · have hkeep : (if 0 < countOf counts (i + 1) then b.maxcode.set (i + 1) (c.code - 1) else b.maxcode)[j]? =
          b.maxcode[j]? := by
        split_ifs
        · exact List.getElem?_set_ne hne.symm
        · rfl
      rw [hkeep, hold]
      have hle : j ≤ i ↔ j ≤ i + 1 := by omega
      simp only [hle]
  · intro j hj
    have hold := hbound.offset j hj
    have hlen : i + 1 < b.offset.length := by
      have hlast := hbound.offset (i + 1) (by omega)
      exact (List.getElem?_eq_some_iff.1 hlast).1
    change c.offset[j]? = _
    rw [hoff]
    rcases eq_or_ne j (i + 1) with rfl | hne
    · rw [List.getElem?_set_self hlen, if_pos le_rfl, hb.k, hb.code]
      rfl
    · rw [List.getElem?_set_ne hne.symm, hold]
      have hle : j ≤ i ↔ j ≤ i + 1 := by omega
      simp only [hle]

/-- What the table for some codes finds. -/
structure Finds (counts values : List UInt8) (t : Table) : Prop where
  code : ∀ l c, 0 < l → l ≤ 9 → first (countOf counts) l ≤ c → c < last (countOf counts) l →
    ∀ x, x / 2 ^ (9 - l) = c → t.fast[x]? = some (entry counts values l (c - first (countOf counts) l))
  none : ∀ x, x < 512 → (∀ l, 0 < l → l ≤ 9 →
    ¬ (first (countOf counts) l ≤ x / 2 ^ (9 - l) ∧ x / 2 ^ (9 - l) < last (countOf counts) l)) →
    t.fast[x]? = some 0
  maxcode : ∀ l, l ≤ 16 → t.maxcode[l]? =
    some (if 0 < countOf counts l then (last (countOf counts) l : ℤ) - 1 else -1)
  offset : ∀ l, l ≤ 16 → t.offset[l]? =
    some ((Canonical.offset (countOf counts) l : ℤ) - first (countOf counts) l)
  values : t.values = values

/-- The table is built, and finds each code. -/
theorem new_finds (hcounts : counts.length = 16) (hkraft : weight (countOf counts) 16 ≤ 2 ^ 16)
    (hvalues : values.length = offset (countOf counts) 17) :
    ∃ t, Table.new counts values = some t ∧ Finds counts values t := by
  have hempty : ∀ j m, ¬ Done counts 1 0 j m := by
    rintro j m ⟨hj₀, -, ⟨hlt, -⟩ | ⟨-, hm⟩⟩ <;> omega
  have hbuilt : Built counts values 1 0 ⟨List.replicate 512 0, List.replicate 17 (-1), List.replicate 17 0, 0, 0⟩ := by
    refine ⟨rfl, rfl, List.length_replicate, fun j m x h => absurd h (hempty j m), fun x hx _ => ?_⟩
    exact List.getElem?_replicate_of_lt hx
  have hbound : Bounded counts 0 ⟨List.replicate 512 0, List.replicate 17 (-1), List.replicate 17 0, 0, 0⟩ := by
    refine ⟨fun j hj => ?_, fun j hj => ?_⟩
    · have hzero : ¬ (j ≤ 0 ∧ 0 < countOf counts j) := by
        rintro ⟨hj₀, hpos⟩
        rw [Nat.le_zero.1 hj₀] at hpos
        exact lt_irrefl 0 hpos
      rw [if_neg hzero]
      exact List.getElem?_replicate_of_lt hj
    · have hzero : (if j ≤ 0 then (offset (countOf counts) j : ℤ) - first (countOf counts) j else 0) = 0 := by
        split_ifs with hj₀
        · rw [Nat.le_zero.1 hj₀]
          rfl
        · rfl
      rw [hzero]
      exact List.getElem?_replicate_of_lt hj
  obtain ⟨b, hrun, hb, hlimits⟩ := foldlM_range_of (m := Option) (newLength counts values)
    (P := fun i b => Built counts values (i + 1) 0 b ∧ Bounded counts i b) ⟨hbuilt, hbound⟩
    (n := 16) (by
      rintro i hi b ⟨hb, hlimits⟩
      exact newLength_built hcounts hkraft hvalues hi hb hlimits)
  refine ⟨⟨b.fast, b.maxcode, b.offset, values⟩, by unfold Table.new; rw [hrun]; rfl, ?_, ?_, ?_, ?_, rfl⟩
  · intro l c hl₀ hl hle hlt x hx
    apply hb.codes l (c - first (countOf counts) l) x
    · refine ⟨hl₀, hl, Or.inl ⟨by omega, ?_⟩⟩
      rw [last] at hlt
      omega
    · rw [hx]
      omega
  · intro x hx hno
    apply hb.empty x hx
    rintro j m ⟨hj₀, hj, ⟨-, hm⟩ | ⟨-, hm⟩⟩ heq
    · apply hno j hj₀ hj
      rw [heq, last]
      omega
    · omega
  · intro l hl
    have hmax := hlimits.maxcode l (by omega)
    simpa [hl] using hmax
  · intro l hl
    have hoff := hlimits.offset l (by omega)
    simpa [hl] using hoff

end Table

/-! ## Bits at hand -/

theorem ofBytes_cons (b : UInt8) (bs : List UInt8) : ofBytes (b :: bs) = big 8 b.toNat ++ ofBytes bs := rfl

theorem stream_cons (b : UInt8) (bs : List UInt8) (i : ℕ) :
    stream (ofBytes (b :: bs)) i = if i < 8 then b.toNat.testBit (7 - i) else stream (ofBytes bs) (i - 8) := by
  rw [ofBytes_cons, stream, List.getD_eq_getElem?_getD]
  split_ifs with hi
  · rw [List.getElem?_append_left (by simpa using hi), getElem?_big hi]
    rfl
  · rw [List.getElem?_append_right (by simpa using hi), length_big, stream, List.getD_eq_getElem?_getD]

@[simp] theorem stream_nil (i : ℕ) : stream [] i = false := rfl

namespace Bits

theorem rest_of_none {s : Bits} (h : s.stop = none) : s.rest = unstuff (s.data.drop s.at_) := by
  simp [rest, h]

theorem rest_of_some {s : Bits} {at_ : ℕ} (h : s.stop = some at_) : s.rest = [] := by
  simp [rest, h]

/-- A byte is taken from what is read, or is zero where nothing is. -/
theorem next_cases (s : Bits) :
    (∃ (b : UInt8) (at_ : ℕ), s.next = (b.toNat, at_, none) ∧ s.rest = b :: unstuff (s.data.drop at_)) ∨
      s.rest = [] ∧ ∃ stop, s.next = (0, s.at_, stop) ∧ (stop = none → unstuff (s.data.drop s.at_) = []) := by
  unfold next
  by_cases hread : s.stop.isNone ∧ s.at_ < s.data.length
  · obtain ⟨hstop, hat⟩ := hread
    have hrest := rest_of_none (Option.isNone_iff_eq_none.1 hstop)
    have hb : s.data.getD s.at_ 0 = s.data[s.at_] := by
      rw [List.getD_eq_getElem?_getD, List.getElem?_eq_getElem hat, Option.getD_some]
    rw [List.drop_eq_getElem_cons hat] at hrest
    rw [if_pos ⟨hstop, hat⟩, hb]
    by_cases hff : s.data[s.at_] = 0xFF
    · rw [hff] at hrest
      rw [if_neg (not_not.2 hff), hff]
      by_cases hzero : s.data[s.at_ + 1]? = some 0
      · obtain ⟨hlt, hval⟩ := List.getElem?_eq_some_iff.1 hzero
        rw [List.drop_eq_getElem_cons hlt, hval, unstuff_stuffed] at hrest
        rw [if_pos hzero]
        exact Or.inl ⟨0xFF, _, rfl, hrest⟩
      · have hhead : (s.data.drop (s.at_ + 1))[0]? ≠ some 0 := by
          rwa [List.getElem?_drop, Nat.add_zero]
        rw [if_neg hzero]
        exact Or.inr ⟨hrest.trans (unstuff_marker hhead), _, rfl, nofun⟩
    · rw [unstuff_of_ne hff] at hrest
      rw [if_pos hff]
      exact Or.inl ⟨_, _, rfl, hrest⟩
  · rw [if_neg hread]
    have hend : s.stop = none → unstuff (s.data.drop s.at_) = [] := by
      intro hstop
      have hlen : s.data.length ≤ s.at_ := by
        by_contra hlt
        exact hread ⟨by simp [hstop], by omega⟩
      rw [List.drop_eq_nil_of_le hlen]
      rfl
    refine Or.inr ⟨?_, _, rfl, hend⟩
    cases hstop : s.stop with
    | none => rw [rest_of_none hstop, hend hstop]
    | some at_ => exact rest_of_some hstop

/-- The bits of the next byte are the next ones of what is read. -/
theorem byte_cases (s : Bits) :
    ∃ b, s.byte.buf = s.buf ||| b <<< (24 - s.n) ∧ s.byte.n = s.n + 8 ∧ b < 2 ^ 8 ∧
      ∀ i, stream (ofBytes s.rest) i = if i < 8 then b.testBit (7 - i) else stream (ofBytes s.byte.rest) (i - 8) := by
  rcases s.next_cases with ⟨b, at_, hnext, hrest⟩ | ⟨hrest, stop, hnext, hend⟩
  · have hbyte : s.byte.rest = unstuff (s.data.drop at_) := by
      simp [byte, hnext, rest]
    refine ⟨b.toNat, by simp [byte, hnext], rfl, b.toNat_lt, fun i => ?_⟩
    rw [hrest, hbyte, stream_cons]
  · have hbyte : s.byte.rest = [] := by
      cases stop with
      | none => simp [byte, hnext, rest, hend rfl]
      | some at_ => simp [byte, hnext, rest]
    refine ⟨0, by simp [byte, hnext], rfl, by norm_num, fun i => ?_⟩
    simp [hrest, hbyte, ofBytes]

/-- One more byte at hand leaves the bits ahead as they are. -/
theorem Sound.byte {s : Bits} (h : s.Sound) (hn : s.n ≤ 24) : s.byte.Sound ∧ s.byte.ahead = s.ahead := by
  obtain ⟨b, hbuf, hlen, hb, hrest⟩ := s.byte_cases
  have hbit : ∀ i, s.byte.buf.testBit i =
      (s.buf.testBit i || (decide (24 - s.n ≤ i) && b.testBit (i - (24 - s.n)))) := by
    intro i
    rw [hbuf, Nat.testBit_or, Nat.testBit_shiftLeft]
  have hhigh : ∀ i, 8 ≤ i → b.testBit i = false := fun i hi =>
    Nat.testBit_lt_two_pow (hb.trans_le (Nat.pow_le_pow_right (by norm_num) hi))
  refine ⟨⟨by omega, ?_, fun i hi => ?_⟩, ?_⟩
  · apply Nat.lt_pow_two_of_testBit
    intro i hi
    rw [hbit, Nat.testBit_lt_two_pow (h.word.trans_le (Nat.pow_le_pow_right (by norm_num) hi)),
      hhigh _ (by omega)]
    simp
  · have hle : ¬ 24 - s.n ≤ i := by omega
    rw [hbit, h.low i (by omega)]
    simp [hle]
  · funext i
    unfold ahead
    rw [hlen, hbit]
    rcases lt_or_ge i s.n with hi | hi
    · rw [if_pos hi, if_pos (by omega), hhigh _ (by omega)]
      simp
    · rw [if_neg (Nat.not_lt.2 hi), hrest]
      rcases lt_or_ge i (s.n + 8) with hi' | hi'
      · have hle : 24 - s.n ≤ 31 - i := by omega
        have hplace : 31 - i - (24 - s.n) = 7 - (i - s.n) := by omega
        rw [if_pos hi', if_pos (by omega), h.low _ (by omega), hplace]
        simp [hle]
      · rw [if_neg (Nat.not_lt.2 hi'), if_neg (by omega), Nat.sub_sub]

theorem Sound.more {s : Bits} (h : s.Sound) : s.more.Sound ∧ s.more.ahead = s.ahead ∧ 24 < s.more.n := by
  fun_induction Bits.more s with
  | case1 s hn ih =>
    obtain ⟨hbyte, hahead⟩ := h.byte hn
    rw [← hahead]
    exact ih hbyte
  | case2 s hn => exact ⟨h, rfl, Nat.not_le.1 hn⟩

/-- With more than 24 bits at hand nothing is read. -/
theorem more_eq {s : Bits} (h : 24 < s.n) : s.more = s := by
  unfold more
  rw [if_neg (by omega)]

/-- The bits at hand are the first ones ahead. -/
theorem Sound.code_ahead {s : Bits} (h : s.Sound) {k : ℕ} (hk : k ≤ s.n) :
    code s.ahead k = s.buf >>> (32 - k) := by
  have hroom := h.room
  rw [Nat.shiftRight_eq_div_pow, ← code_testBit h.word (by omega)]
  apply code_congr
  intro i hi
  exact if_pos (by omega)

theorem Sound.skip {s : Bits} (h : s.Sound) {k : ℕ} (hk : k ≤ s.n) :
    (s.skip k).Sound ∧ ∀ i, (s.skip k).ahead i = s.ahead (i + k) := by
  have hroom := h.room
  have hbit : ∀ i, (s.skip k).buf.testBit i = (decide (i < 32) && (decide (k ≤ i) && s.buf.testBit (i - k))) := by
    intro i
    rw [Bits.skip, Nat.testBit_mod_two_pow, Nat.testBit_shiftLeft]
  have hlen : (s.skip k).n = s.n - k := rfl
  refine ⟨⟨by omega, Nat.mod_lt _ (by norm_num), fun i hi => ?_⟩, fun i => ?_⟩
  · rw [hbit]
    rcases lt_or_ge i k with hik | hik
    · simp [Nat.not_le.2 hik]
    · rw [h.low _ (by omega)]
      simp
  · unfold ahead
    rw [hlen, hbit]
    rcases lt_or_ge i (s.n - k) with hi | hi
    · have hlt : 31 - i < 32 := by omega
      have hle : k ≤ 31 - i := by omega
      rw [if_pos hi, if_pos (by omega)]
      simp [hlt, hle, Nat.sub_sub]
    · have hplace : i - (s.n - k) = i + k - s.n := by omega
      rw [if_neg (by omega), if_neg (by omega), hplace]
      rfl

end Bits

/-! ## Symbols -/

section Symbols

variable (counts values : List UInt8)

/-- The symbol that some bits begin with, found bit by bit, and its length; where no code of up to 16 bits is
found, zero. -/
def symbol (bits : ℕ → Bool) : UInt8 × ℕ :=
  match Canonical.decode (countOf counts) 16 bits with
  | some (i, l) => (values.getD i 0, l)
  | none => (0, 16)

variable {counts values} {t : Table} {bits : ℕ → Bool}

theorem entry_eq {l : ℕ} (hl : l ≤ 9) (m : ℕ) :
    entry counts values l m = 2 ^ 8 * (values.getD (offset (countOf counts) l + m) 0).toNat + l := by
  rw [entry, ← Nat.shiftLeft_add_eq_or_of_lt (by omega), Nat.shiftLeft_eq, Nat.mul_comm]

theorem countOf_zero : countOf counts 0 = 0 := rfl

theorem not_hit_zero : ¬ Hit (countOf counts) bits 0 := by
  rintro ⟨hle, hlt⟩
  rw [last, countOf_zero] at hlt
  omega

/-- Where no shorter part is a code, the largest code of a length tells whether the bits are one. -/
theorem le_maxcode_iff {l : ℕ} (h : ∀ j < l, ¬ Hit (countOf counts) bits j) :
    (code bits l : ℤ) ≤ (if 0 < countOf counts l then (last (countOf counts) l : ℤ) - 1 else -1) ↔
      Hit (countOf counts) bits l := by
  rw [hit_iff h]
  have hfirst := first_le h
  split_ifs with hpos
  · omega
  · rw [last]
    omega

theorem long_hit (ht : Finds counts values t) (s : Bits) {l j : ℕ} (hit : Hit (countOf counts) bits l)
    (hj : j ≤ l) (hl : l ≤ 16) :
    Bits.long t (code bits 16) s (List.range' j (17 - j)) =
      some (values.getD (offset (countOf counts) l + (code bits l - first (countOf counts) l)) 0, s.skip l) := by
  induction hj using Nat.decreasingInduction with
  | self =>
    have hno : ∀ i < l, ¬ Hit (countOf counts) bits i := fun i hi h => hi.ne (h.unique hit)
    have hplace : 0 ≤ (code bits l : ℤ) + ((offset (countOf counts) l : ℤ) - first (countOf counts) l) := by
      have hle := hit.1
      omega
    have hnat : ((code bits l : ℤ) + ((offset (countOf counts) l : ℤ) - first (countOf counts) l)).toNat =
        offset (countOf counts) l + (code bits l - first (countOf counts) l) := by
      have hle := hit.1
      omega
    rw [show 17 - l = (16 - l) + 1 by omega, List.range'_succ, Bits.long]
    simp only [Nat.shiftRight_eq_div_pow, code_div bits hl, ht.maxcode l hl, ht.offset l hl, Option.bind_eq_bind,
      Option.bind_some, if_pos ((le_maxcode_iff hno).2 hit), if_pos hplace, hnat, ht.values]
    rfl
  | of_succ j hj ih =>
    have hlt : j < l := hj
    have hno : ∀ i < j, ¬ Hit (countOf counts) bits i := fun i hi h => (hi.trans hlt).ne (h.unique hit)
    have hmiss : ¬ Hit (countOf counts) bits j := fun h => hlt.ne (h.unique hit)
    rw [show 17 - j = (17 - (j + 1)) + 1 by omega, List.range'_succ, Bits.long]
    simp only [Nat.shiftRight_eq_div_pow, code_div bits (hlt.le.trans hl), ht.maxcode j (hlt.le.trans hl),
      Option.bind_eq_bind, Option.bind_some, if_neg fun h => hmiss ((le_maxcode_iff hno).1 h)]
    exact ih

theorem long_none (ht : Finds counts values t) (s : Bits) {j : ℕ}
    (hno : ∀ l, l ≤ 16 → ¬ Hit (countOf counts) bits l) (hj : j ≤ 17) :
    Bits.long t (code bits 16) s (List.range' j (17 - j)) = some (0, s.skip 16) := by
  induction hj using Nat.decreasingInduction with
  | self => rfl
  | of_succ j hj ih =>
    have hle : j ≤ 16 := by omega
    have hmiss := (le_maxcode_iff fun i hi => hno i (by omega)).not.2 (hno j hle)
    rw [show 17 - j = (17 - (j + 1)) + 1 by omega, List.range'_succ, Bits.long]
    simp only [Nat.shiftRight_eq_div_pow, code_div bits hle, ht.maxcode j hle, Option.bind_eq_bind, Option.bind_some,
      if_neg hmiss]
    exact ih

/-- The lookup gives the symbol that is found bit by bit, and takes its bits. -/
theorem decode_eq_symbol (ht : Finds counts values t) {s : Bits} (hs : s.Sound) :
    s.decode t = some ((symbol counts values s.ahead).1, s.more.skip (symbol counts values s.ahead).2) := by
  obtain ⟨hmore, hahead, hn⟩ := hs.more
  have hnine : s.more.buf >>> (32 - 9) = code s.ahead 9 := by
    rw [← hahead]
    exact (hmore.code_ahead (by omega)).symm
  have hsixteen : s.more.buf >>> (32 - 16) = code s.ahead 16 := by
    rw [← hahead]
    exact (hmore.code_ahead (by omega)).symm
  have hlt : code s.ahead 9 < 512 := code_lt s.ahead 9
  unfold Bits.decode Bits.peek
  simp only [hnine, Option.bind_eq_bind]
  by_cases hshort : ∃ l, 0 < l ∧ l ≤ 9 ∧ Hit (countOf counts) s.ahead l
  · obtain ⟨l, hl₀, hl, hit⟩ := hshort
    have hfast := ht.code l _ hl₀ hl hit.1 hit.2 _ (code_div s.ahead hl)
    have hsymbol : symbol counts values s.ahead =
        (values.getD (offset (countOf counts) l + (code s.ahead l - first (countOf counts) l)) 0, l) := by
      rw [symbol, decode_eq_some hit hl₀ (by omega)]
    have hvalue := (values.getD (offset (countOf counts) l + (code s.ahead l - first (countOf counts) l)) 0).toNat_lt
    rw [entry_eq hl] at hfast
    have hne : 2 ^ 8 * (values.getD (offset (countOf counts) l + (code s.ahead l - first (countOf counts) l)) 0).toNat + l ≠
        0 := by omega
    have hhigh : (2 ^ 8 * (values.getD (offset (countOf counts) l + (code s.ahead l - first (countOf counts) l)) 0).toNat +
        l) >>> 8 = (values.getD (offset (countOf counts) l + (code s.ahead l - first (countOf counts) l)) 0).toNat := by
      rw [Nat.shiftRight_eq_div_pow]
      omega
    have hlow : (2 ^ 8 * (values.getD (offset (countOf counts) l + (code s.ahead l - first (countOf counts) l)) 0).toNat +
        l) &&& 0xFF = l := by
      rw [show 0xFF = 2 ^ 8 - 1 from rfl, Nat.and_two_pow_sub_one_eq_mod]
      omega
    rw [hfast, hsymbol, Option.bind_some, if_pos hne, hhigh, hlow, UInt8.ofNat_toNat]
    rfl
  · have hno : ∀ l, l ≤ 9 → ¬ Hit (countOf counts) s.ahead l := by
      intro l hl hit
      rcases Nat.eq_zero_or_pos l with rfl | hl₀
      · exact not_hit_zero hit
      · exact hshort ⟨l, hl₀, hl, hit⟩
    have hfast := ht.none _ hlt fun l _ hl h => hno l hl (by rwa [code_div s.ahead hl] at h)
    rw [hfast, Option.bind_some, if_neg (by simp), Bits.more_eq hn, hsixteen]
    by_cases hlong : ∃ l, l ≤ 16 ∧ Hit (countOf counts) s.ahead l
    · obtain ⟨l, hl, hit⟩ := hlong
      have hl₁ : 10 ≤ l := by
        by_contra hlt
        exact hno l (by omega) hit
      rw [symbol, decode_eq_some hit (by omega) hl]
      exact long_hit ht s.more hit hl₁ hl
    · have hnone : ∀ l, l ≤ 16 → ¬ Hit (countOf counts) s.ahead l := fun l hl hit => hlong ⟨l, hl, hit⟩
      rw [symbol, decode_eq_none fun l _ hl => hnone l hl]
      exact long_none ht s.more hnone (j := 10) (by norm_num)

end Symbols

/-! ## Positions in a scan -/

/-- Where a scan can be: at its beginning, after some bits, after a symbol, after a restart. -/
inductive Scanning (data : List UInt8) : Bits → Prop where
  | start (at_ : ℕ) : Scanning data ⟨data, at_, 0, 0, none⟩
  | take {s : Bits} (k : ℕ) (hk : k ≤ 16) : Scanning data s → Scanning data (s.take k).2
  | decode {s s' : Bits} {counts values : List UInt8} {t : Table} {v : UInt8} (ht : Finds counts values t) :
      Scanning data s → s.decode t = some (v, s') → Scanning data s'
  | restart {s : Bits} : Scanning data s → Scanning data s.restart

theorem length_symbol_le (counts values : List UInt8) (bits : ℕ → Bool) : (symbol counts values bits).2 ≤ 16 := by
  unfold symbol
  by_cases h : ∃ l, 0 < l ∧ l ≤ 16 ∧ Hit (countOf counts) bits l
  · obtain ⟨l, hl₀, hl, hit⟩ := h
    rw [decode_eq_some hit hl₀ hl]
    exact hl
  · rw [decode_eq_none fun l hl₀ hl hit => h ⟨l, hl₀, hl, hit⟩]

theorem Bits.sound_of_empty {s : Bits} (hbuf : s.buf = 0) (hn : s.n = 0) : s.Sound := by
  refine ⟨by omega, by omega, fun i _ => ?_⟩
  rw [hbuf]
  exact Nat.zero_testBit i

theorem Scanning.sound {data : List UInt8} {s : Bits} (h : Scanning data s) : s.Sound := by
  induction h with
  | start at_ => exact Bits.sound_of_empty rfl rfl
  | @take s k hk _ ih =>
    unfold Bits.take
    split_ifs
    · exact ih
    · obtain ⟨hmore, -, hn⟩ := ih.more
      exact (hmore.skip (by omega)).1
  | @decode s s' counts values t v ht _ hrun ih =>
    obtain ⟨hmore, -, hn⟩ := ih.more
    have hlen := length_symbol_le counts values s.ahead
    rw [decode_eq_symbol ht ih] at hrun
    obtain ⟨-, rfl⟩ := Prod.mk.inj (Option.some_inj.1 hrun)
    exact (hmore.skip (by omega)).1
  | restart _ _ =>
    unfold Bits.restart
    simp only
    split_ifs <;> exact Bits.sound_of_empty rfl rfl

/-- For every table whose codes fit and at every position, the lookup gives the symbol that the bits ahead
begin with and leaves the bits after it. At the beginning the bits ahead are those of the scan, and zeros. -/
theorem decode_canonical {counts values : List UInt8} (hcounts : counts.length = 16)
    (hkraft : weight (countOf counts) 16 ≤ 2 ^ 16) (hvalues : values.length = offset (countOf counts) 17)
    (data : List UInt8) :
    (∀ at_, (⟨data, at_, 0, 0, none⟩ : Bits).ahead = stream (ofBytes (unstuff (data.drop at_)))) ∧
    ∃ t, Table.new counts values = some t ∧ ∀ s, Scanning data s → ∃ s',
      s.decode t = some ((symbol counts values s.ahead).1, s') ∧
        s' = s.more.skip (symbol counts values s.ahead).2 ∧
        ∀ i, s'.ahead i = s.ahead (i + (symbol counts values s.ahead).2) := by
  refine ⟨fun at_ => ?_, ?_⟩
  · funext i
    simp [Bits.ahead, Bits.rest]
  · obtain ⟨t, hnew, ht⟩ := new_finds hcounts hkraft hvalues
    refine ⟨t, hnew, fun s hs => ⟨_, decode_eq_symbol ht hs.sound, rfl, fun i => ?_⟩⟩
    obtain ⟨hmore, hahead, hn⟩ := hs.sound.more
    have hlen := length_symbol_le counts values s.ahead
    rw [(hmore.skip (by omega)).2, hahead]

/-- Codes of one, two and ten bits, at the end of a scan whose last byte is stuffed. -/
theorem decode_canonical_short :
    ∃ t, Table.new [1, 1, 0, 0, 0, 0, 0, 0, 0, 1, 0, 0, 0, 0, 0, 0] [5, 6, 7] = some t ∧
      ∀ s, Scanning [0x40, 0xFF, 0x00, 0xFF, 0xD9] s → ∃ s',
        s.decode t =
            some ((symbol [1, 1, 0, 0, 0, 0, 0, 0, 0, 1, 0, 0, 0, 0, 0, 0] [5, 6, 7] s.ahead).1, s') ∧
          s' = s.more.skip (symbol [1, 1, 0, 0, 0, 0, 0, 0, 0, 1, 0, 0, 0, 0, 0, 0] [5, 6, 7] s.ahead).2 ∧
          ∀ i, s'.ahead i =
            s.ahead (i + (symbol [1, 1, 0, 0, 0, 0, 0, 0, 0, 1, 0, 0, 0, 0, 0, 0] [5, 6, 7] s.ahead).2) :=
  (decode_canonical (by decide) (by decide) (by decide) [0x40, 0xFF, 0x00, 0xFF, 0xD9]).2

example : symbol [1, 1, 0, 0, 0, 0, 0, 0, 0, 1, 0, 0, 0, 0, 0, 0] [5, 6, 7]
    (stream (ofBytes (unstuff [0xC0, 0x00, 0xFF, 0xD9]))) = (7, 10) := by decide

end Chatlink.Media.Jpeg
