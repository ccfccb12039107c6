import Chatlink.Lib.Canonical

/-!
# What a deflate stream says

Blocks as lists of bits and what they add to the output: bytes as they are, or symbols of canonical codes,
literals and references to what was put out before. The codes of a block are fixed, or their lengths stand
at its beginning. A zlib stream is such a stream between a header and a checksum.
-/
namespace Chatlink.Media.Deflate

open BitLists Canonical

/-! ## Symbols -/

/-- Extra bits of the `k`th length code. -/
def lengthExtra (k : ℕ) : ℕ := if k < 8 ∨ k = 28 then 0 else (k - 4) / 4

/-- The shortest length of the `k`th length code: the codes before it take the lengths up to there. -/
def lengthBase : ℕ → ℕ
  | 0 => 3
  | k + 1 => lengthBase k + 2 ^ lengthExtra k

/-- The length of a code with its extra bits; the last code is the greatest length alone. -/
def lengthOf (k x : ℕ) : ℕ := if k = 28 then 258 else lengthBase k + x

/-- Extra bits and the shortest distance of each distance code. -/
def DISTANCES : List (ℕ × ℕ) :=
  [(0, 1), (0, 2), (0, 3), (0, 4), (1, 5), (1, 7), (2, 9), (2, 13), (3, 17), (3, 25), (4, 33), (4, 49), (5, 65),
    (5, 97), (6, 129), (6, 193), (7, 257), (7, 385), (8, 513), (8, 769), (9, 1025), (9, 1537), (10, 2049),
    (10, 3073), (11, 4097), (11, 6145), (12, 8193), (12, 12289), (13, 16385), (13, 24577)]

def distanceExtra (d : ℕ) : ℕ := (DISTANCES.getD d (0, 0)).1

def distanceOf (d y : ℕ) : ℕ := (DISTANCES.getD d (0, 0)).2 + y

/-- `n` bytes from `back` bytes ago, over and over where there are not so many. -/
def repeated (out : List UInt8) (back n : ℕ) : List UInt8 :=
  out ++ (List.range n).map fun i => out.getD (out.length - back + i % back) 0

/-- Coded data, to the code 256: the bits, the output before and after them. -/
inductive Coded (lit dist : List ℕ) : List Bool → List UInt8 → List UInt8 → Prop where
  | stop {out : List UInt8} (h : 0 < len lit 256) : Coded lit dist (word lit 256) out out
  | byte {bits : List Bool} {out out' : List UInt8} (b : UInt8) (h : 0 < len lit b.toNat)
      (rest : Coded lit dist bits (out ++ [b]) out') : Coded lit dist (word lit b.toNat ++ bits) out out'
  | reference {bits : List Bool} {out out' : List UInt8} (k x d y : ℕ) (hk : k < 29) (h : 0 < len lit (257 + k))
      (hx : x < 2 ^ lengthExtra k) (hd : d < 30) (h' : 0 < len dist d) (hy : y < 2 ^ distanceExtra d)
      (hback : distanceOf d y ≤ out.length)
      (rest : Coded lit dist bits (repeated out (distanceOf d y) (lengthOf k x)) out') :
      Coded lit dist (word lit (257 + k) ++ (little (lengthExtra k) x ++
        (word dist d ++ (little (distanceExtra d) y ++ bits)))) out out'

/-! ## Code lengths -/

/-- The order of the code-length code's lengths. -/
def ORDER : List ℕ := [16, 17, 18, 0, 8, 7, 9, 6, 10, 5, 11, 4, 12, 3, 13, 2, 14, 1, 15]

/-- Code lengths in the code-length code: the bits, the lengths before and after them. -/
inductive Lengths (cl : List ℕ) : List Bool → List ℕ → List ℕ → Prop where
  | done {ls : List ℕ} : Lengths cl [] ls ls
  | one {bits : List Bool} {ls ls' : List ℕ} (l : ℕ) (hl : l ≤ 15) (h : 0 < len cl l)
      (rest : Lengths cl bits (ls ++ [l]) ls') : Lengths cl (word cl l ++ bits) ls ls'
  | again {bits : List Bool} {ls ls' : List ℕ} (x l : ℕ) (hx : x < 2 ^ 2) (h : 0 < len cl 16)
      (hl : ls.getLast? = some l) (rest : Lengths cl bits (ls ++ List.replicate (3 + x) l) ls') :
      Lengths cl (word cl 16 ++ (little 2 x ++ bits)) ls ls'
  | zeros {bits : List Bool} {ls ls' : List ℕ} (x : ℕ) (hx : x < 2 ^ 3) (h : 0 < len cl 17)
      (rest : Lengths cl bits (ls ++ List.replicate (3 + x) 0) ls') :
      Lengths cl (word cl 17 ++ (little 3 x ++ bits)) ls ls'
  | moreZeros {bits : List Bool} {ls ls' : List ℕ} (x : ℕ) (hx : x < 2 ^ 7) (h : 0 < len cl 18)
      (rest : Lengths cl bits (ls ++ List.replicate (11 + x) 0) ls') :
      Lengths cl (word cl 18 ++ (little 7 x ++ bits)) ls ls'

/-- What stands before a dynamic block's data: how many lengths there are, the code they are in, and they
themselves, first the literals' and then the distances'. -/
structure Head (nlit ndist ncode : ℕ) (cl : List ℕ) (bits : List Bool) (lens : List ℕ) : Prop where
  manyLit : nlit < 2 ^ 5
  manyDist : ndist < 2 ^ 5
  manyCode : ncode < 2 ^ 4
  length : cl.length = 19
  three : ∀ l ∈ cl, l < 2 ^ 3
  listed : ∀ i < 19, i ∉ ORDER.take (ncode + 4) → cl.getD i 0 = 0
  code : Fits cl 15
  lengths : Lengths cl bits [] lens
  total : lens.length = nlit + 257 + (ndist + 1)
  lit : Fits (lens.take (nlit + 257)) 15
  dist : Fits (lens.drop (nlit + 257)) 15

/-! ## Blocks -/

/-- The code lengths of a fixed block's literals and lengths. -/
def fixedLit : List ℕ := (List.range 288).map fun s => if s < 144 then 8 else if s < 256 then 9 else if s < 280 then 7 else 8

def fixedDist : List ℕ := List.replicate 32 5

/-- A block from its type on, `pos` bits after the beginning of the stream. -/
inductive Block (pos : ℕ) : List Bool → List UInt8 → List UInt8 → Prop where
  | stored {out : List UInt8} (spare : List Bool) (bytes : List UInt8) (hspare : spare.length = (8 - (pos + 2) % 8) % 8)
      (hlen : bytes.length < 2 ^ 16) :
      Block pos (little 2 0 ++ (spare ++ (little 16 bytes.length ++ (little 16 (2 ^ 16 - 1 - bytes.length) ++
        ofBytesLittle bytes)))) out (out ++ bytes)
  | fixed {bits : List Bool} {out out' : List UInt8} (h : Coded fixedLit fixedDist bits out out') :
      Block pos (little 2 1 ++ bits) out out'
  | dynamic {bits bits' : List Bool} {out out' : List UInt8} (nlit ndist ncode : ℕ) (cl lens : List ℕ)
      (head : Head nlit ndist ncode cl bits lens)
      (h : Coded (lens.take (nlit + 257)) (lens.drop (nlit + 257)) bits' out out') :
      Block pos (little 2 2 ++ (little 5 nlit ++ (little 5 ndist ++ (little 4 ncode ++
        ((ORDER.take (ncode + 4)).flatMap (fun i => little 3 (cl.getD i 0)) ++ (bits ++ bits')))))) out out'

/-- Blocks to the last, from `pos` bits after the beginning on. -/
inductive Blocks : ℕ → List Bool → List UInt8 → List UInt8 → Prop where
  | last {pos : ℕ} {bits : List Bool} {out out' : List UInt8} (h : Block (pos + 1) bits out out') :
      Blocks pos (little 1 1 ++ bits) out out'
  | more {pos : ℕ} {bits bits' : List Bool} {out mid out' : List UInt8} (h : Block (pos + 1) bits out mid)
      (rest : Blocks (pos + 1 + bits.length) bits' mid out') : Blocks pos (little 1 0 ++ (bits ++ bits')) out out'

/-! ## zlib -/

/-- The sum of the bytes and one, and the sum of these sums. -/
def adlerLow (out : List UInt8) : ℕ := (1 + (out.map UInt8.toNat).sum) % 65521

def adlerHigh (out : List UInt8) : ℕ :=
  ((List.range out.length).map fun i => 1 + ((out.take (i + 1)).map UInt8.toNat).sum).sum % 65521

def adler32 (out : List UInt8) : ℕ := 65536 * adlerHigh out + adlerLow out

/-- A number as four bytes. -/
def be32 (n : ℕ) : List UInt8 :=
  [UInt8.ofNat (n / 2 ^ 24), UInt8.ofNat (n / 2 ^ 16), UInt8.ofNat (n / 2 ^ 8), UInt8.ofNat n]

/-- A zlib stream with its data, and what follows it. -/
def Zlib (z out : List UInt8) : Prop :=
  ∃ (cmf flg : UInt8) (body after : List UInt8) (bits spare : List Bool),
    z = cmf :: flg :: (body ++ (be32 (adler32 out) ++ after)) ∧
    cmf.toNat % 16 = 8 ∧ (256 * cmf.toNat + flg.toNat) % 31 = 0 ∧ flg.toNat.testBit 5 = false ∧
    ofBytesLittle body = bits ++ spare ∧ spare.length < 8 ∧ Blocks 0 bits [] out

end Chatlink.Media.Deflate
