import Chatlink.Lib.Loops
import Chatlink.Media.Png

/-!
# zlib streams and their deflate blocks

Stored, fixed and dynamic blocks. Codes of up to ten bits decode through one table lookup, longer ones bit
by bit. What reads past an end stops the program, and so does a loop that makes more steps than bits are left.
-/
namespace Chatlink.Media.Inflate

open Loops
open Tachyon (Error)

/-- Bits a Huffman table resolves at once. -/
def FAST : ℕ := 10

/-- Base lengths of length codes 257 to 285. -/
def BASES : List ℕ :=
  [3, 4, 5, 6, 7, 8, 9, 10, 11, 13, 15, 17, 19, 23, 27, 31, 35, 43, 51, 59, 67, 83, 99, 115, 131, 163, 195, 227, 258]

/-- Extra bits of length codes 257 to 285. -/
def EXTRA : List ℕ := [0, 0, 0, 0, 0, 0, 0, 0, 1, 1, 1, 1, 2, 2, 2, 2, 3, 3, 3, 3, 4, 4, 4, 4, 5, 5, 5, 5, 0]

/-- The order in which a dynamic block lists its code-length code lengths. -/
def ORDER : List ℕ := [16, 17, 18, 0, 8, 7, 9, 6, 10, 5, 11, 4, 12, 3, 13, 2, 14, 1, 15]

/-! ## Bits -/

/-- The bits of a stream, least significant first. -/
structure Bits where
  data : List UInt8
  at_ : ℕ
  buf : ℕ
  n : ℕ
  deriving DecidableEq, Repr

/-- What reads a stream. -/
abbrev Inflating := StateT Bits Decoding

/-- The program stops. -/
def stop {α : Type} : Inflating α := fun _ => none

namespace Bits

/-- How many bits are left. -/
def left (s : Bits) : ℕ := s.n + 8 * (s.data.length - s.at_)

/-- Whole bytes into the buffer, while there are some and they fit. -/
def more (s : Bits) : Bits :=
  if s.n ≤ 56 ∧ s.at_ < s.data.length then
    more { s with at_ := s.at_ + 1, buf := s.buf ||| (s.data.getD s.at_ 0).toNat <<< s.n, n := s.n + 8 }
  else s
termination_by 64 - s.n

end Bits

/-- The next `k` bits without consuming them, zeros past the end. -/
def peek (k : ℕ) : Inflating ℕ := fun s =>
  let s := s.more
  pure (s.buf &&& (1 <<< k - 1), s)

/-- Consumes `k` bits; an error past the end. -/
def skip (k : ℕ) : Inflating Unit := fun s =>
  if s.n < k then throw (bad "a deflate stream ends early")
  else pure ((), { s with buf := s.buf >>> k, n := s.n - k })

def take (k : ℕ) : Inflating ℕ := do
  let v ← peek k
  skip k
  return v

/-! ## Huffman codes -/

/-- A canonical Huffman code: a table of codes up to ten bits (symbol and length, 0 for longer), and the
counts and symbols for the rest. -/
structure Huffman where
  fast : List ℕ
  counts : List ℕ
  symbols : List ℕ
  deriving DecidableEq, Repr

/-- An element written, if it is there. -/
def put (xs : List ℕ) (i v : ℕ) : Option (List ℕ) := if i < xs.length then some (xs.set i v) else none

/-- How many symbols there are of each length. -/
def countsOf (lengths : List ℕ) : Option (List ℕ) := do
  let counts ← lengths.foldlM (fun counts l => do put counts l ((← counts[l]?) + 1))
    (List.replicate 16 0)
  put counts 0 0

/-- Where the symbols of each length begin. -/
def offsOf (counts : List ℕ) : Option (List ℕ) :=
  (List.range 15).foldlM (fun offs i => do put offs (i + 1) ((← offs[i]?) + (← counts[i]?))) (List.replicate 16 0)

/-- The first code of each length. -/
def nextOf (counts : List ℕ) : Option (ℕ × List ℕ) :=
  (List.range 15).foldlM (fun t i => do
    let code := (t.1 + (← counts[i]?)) <<< 1
    return (code, ← put t.2 (i + 1) code)) (0, List.replicate 16 0)

/-- The bits of `c` in reverse, `len` of them. -/
def reversed (c len : ℕ) : ℕ := (BitVec.ofNat 32 c).reverse.toNat >>> (32 - len)

/-- Tables being filled: the next place and the next code of each length. -/
structure Filling where
  symbols : List ℕ
  offs : List ℕ
  next : List ℕ
  fast : List ℕ

/-- The table with every index whose low bits are a code. -/
def fillFast (fast : List ℕ) (s c len : ℕ) : Option (List ℕ) :=
  if len ≤ FAST then
    (List.range (1 <<< (FAST - len))).foldlM (fun fast k => put fast (reversed c len ||| k <<< len) (s <<< 4 ||| len)) fast
  else some fast

/-- The tables with symbol `s` of length `l`. -/
def addSymbol (t : Filling) (s l : ℕ) : Option Filling := do
  if l = 0 then return t
  let place ← t.offs[l]?
  let symbols ← put t.symbols place s
  let offs ← put t.offs l (place + 1)
  let c ← t.next[l]?
  let next ← put t.next l (c + 1)
  return ⟨symbols, offs, next, ← fillFast t.fast s c l⟩

def Huffman.new (lengths : List ℕ) : Option Huffman := do
  let counts ← countsOf lengths
  let offs ← offsOf counts
  let (_, next) ← nextOf counts
  let t ← lengths.zipIdx.foldlM (fun t p => addSymbol t p.2 p.1)
    ⟨List.replicate lengths.length 0, offs, next, List.replicate (1 <<< FAST) 0⟩
  return ⟨t.fast, counts, t.symbols⟩

namespace Huffman

/-- A code longer than the table's, bit by bit. -/
def slow (h : Huffman) : List ℕ → ℕ → ℕ → ℕ → Inflating ℕ
  | [], _, _, _ => throw (bad "a deflate stream has an invalid code")
  | l :: ls, code, first, index => do
    let code := code ||| (← take 1)
    let count ← (h.counts[l]? : Option ℕ)
    if (code : ℤ) - count < first then
      let place : ℤ := index + code - first
      (if 0 ≤ place then h.symbols[place.toNat]? else none : Option ℕ)
    else slow h ls (code <<< 1) ((first + count) <<< 1) (index + count)

/-- The next symbol. -/
def decode (h : Huffman) : Inflating ℕ := do
  let e ← (h.fast[← peek FAST]? : Option ℕ)
  if e ≠ 0 then
    skip (e &&& 15)
    return e >>> 4
  else slow h (List.range' 1 15) 0 0 0

end Huffman

/-! ## Blocks -/

/-- A stored block: its length, the complement, the bytes. -/
def stored (out : List UInt8) : Inflating (List UInt8) := do
  skip ((← get).n % 8)
  let len ← take 16
  let nlen ← take 16
  if len ≠ (2 ^ 32 - 1 - nlen) &&& 0xffff then throw (bad "a stored deflate block has a bad length")
  (List.range len).foldlM (fun out _ => do return out ++ [UInt8.ofNat (← take 8)]) out

/-- A code-length symbol as a run: how many, of which length. -/
def length (s : ℕ) (last : Option ℕ) : Inflating (ℕ × ℕ) :=
  if s ≤ 15 then return (1, s)
  else if s = 16 then do
    let x ← take 2
    match last with
    | some v => return (3 + x, v)
    | none => throw (bad "a deflate length repeats nothing")
  else if s = 17 then return (3 + (← take 3), 0)
  else return (11 + (← take 7), 0)

/-- Code lengths until there are enough. -/
def lengthsFrom (code : Huffman) (total : ℕ) (fuel : ℕ) (lengths : List ℕ) : Inflating (List ℕ) :=
  if lengths.length < total then
    match fuel with
    | 0 => stop
    | fuel + 1 => do
      let s ← code.decode
      let (rep, value) ← length s lengths.getLast?
      lengthsFrom code total fuel (lengths ++ List.replicate rep value)
  else return lengths

/-- A dynamic block's literal/length and distance codes. -/
def dynamic : Inflating (Huffman × Huffman) := do
  let nlit := (← take 5) + 257
  let ndist := (← take 5) + 1
  let ncode := (← take 4) + 4
  let order ← (slice ORDER 0 ncode : Option (List ℕ))
  let cl ← order.foldlM (fun cl i => do
    let v ← take 3
    (put cl i v : Option (List ℕ))) (List.replicate 19 0)
  let code ← (Huffman.new cl : Option Huffman)
  let lengths ← lengthsFrom code (nlit + ndist) ((← get).left + 1) []
  if nlit + ndist < lengths.length then throw (bad "deflate code lengths overrun")
  let lit ← (Huffman.new (lengths.take nlit) : Option Huffman)
  let dist ← (Huffman.new (lengths.drop nlit) : Option Huffman)
  return (lit, dist)

/-- A back-reference's distance: its code, then the code's extra bits. -/
def distance (dist : Huffman) : Inflating ℕ := do
  let d ← dist.decode
  if 30 ≤ d then throw (bad "a deflate distance code past 29")
  let extra := if d < 2 then 0 else d / 2 - 1
  let base := if d < 4 then d + 1 else ((2 + (d &&& 1)) <<< extra) + 1
  return base + (← take extra)

/-- `len` bytes from `start` on once more, the first of them as well where they overlap. -/
def copy (out : List UInt8) (start len : ℕ) : Option (List UInt8) :=
  (List.range len).foldlM (fun out i => do return out ++ [← out[start + i]?]) out

/-- A Huffman-coded block's literals and back-references, to its end code. -/
def codes (lit dist : Huffman) : ℕ → List UInt8 → Inflating (List UInt8)
  | 0, _ => stop
  | fuel + 1, out => do
    let s ← lit.decode
    if s < 256 then codes lit dist fuel (out ++ [UInt8.ofNat s])
    else if s = 256 then return out
    else if s ≤ 285 then
      let extra ← (EXTRA[s - 257]? : Option ℕ)
      let len := (← (BASES[s - 257]? : Option ℕ)) + (← take extra)
      let back ← distance dist
      if out.length < back then throw (bad "a deflate distance reaches before the start")
      let out ← (copy out (out.length - back) len : Option (List UInt8))
      codes lit dist fuel out
    else throw (bad "a deflate length code past 285")

/-- The code lengths of a fixed block. -/
def FIXED : List ℕ := List.replicate 144 8 ++ List.replicate 112 9 ++ List.replicate 24 7 ++ List.replicate 8 8

/-- A block in the fixed codes. -/
def fixed (out : List UInt8) : Inflating (List UInt8) := do
  let lit ← (Huffman.new FIXED : Option Huffman)
  let dist ← (Huffman.new (List.replicate 30 5) : Option Huffman)
  codes lit dist ((← get).left + 1) out

/-- What follows the head of a block of some type. -/
def body (kind : ℕ) (out : List UInt8) : Inflating (List UInt8) :=
  match kind with
  | 0 => stored out
  | 1 => fixed out
  | 2 => do
    let (lit, dist) ← dynamic
    codes lit dist ((← get).left + 1) out
  | _ => throw (bad "a deflate block of type 3")

/-- One block; whether it was the last. -/
def block (out : List UInt8) : Inflating (List UInt8 × Bool) := do
  let head ← take 3
  let out ← body (head >>> 1) out
  return (out, head &&& 1 = 1)

/-- Blocks, to the last. -/
def blocks : ℕ → List UInt8 → Inflating (List UInt8)
  | 0, _ => stop
  | fuel + 1, out => do
    let (out, last) ← block out
    if last then return out else blocks fuel out

/-! ## zlib -/

/-- A sum in 32 bits. -/
def add32 (a b : ℕ) : Option ℕ := if a + b < 2 ^ 32 then some (a + b) else none

/-- One more byte of the checksum. -/
def sumByte (s : ℕ × ℕ) (v : UInt8) : Option (ℕ × ℕ) := do
  let a ← add32 s.1 v.toNat
  let b ← add32 (← add32 s.2 s.1) v.toNat
  return (a, b)

/-- The two halves of Adler-32. -/
def sums (out : List UInt8) : Option (ℕ × ℕ) :=
  (chunks 5552 out).foldlM (fun s chunk => do
    let (a, b) ← chunk.foldlM sumByte s
    return (a % 65521, b % 65521)) (1, 0)

/-- What stands before the data is no zlib header. -/
def Refused (z : List UInt8) : Prop :=
  z.length < 6 ∨ (z.getD 0 0).toNat &&& 15 ≠ 8 ∨ ((z.getD 0 0).toNat <<< 8 ||| (z.getD 1 0).toNat) % 31 ≠ 0 ∨
    (z.getD 1 0).toNat &&& 32 ≠ 0

instance (z : List UInt8) : Decidable (Refused z) := by unfold Refused; infer_instance

/-- The checksum that follows the blocks. -/
def want (z : List UInt8) (bits : Bits) : Option ℕ :=
  let last := 2 + bits.at_ - bits.n / 8
  (slice z last (last + 4)).map fun b => b.foldl (fun n b => 256 * n + b.toNat) 0

/-- The data of a zlib stream, checked against its Adler-32. -/
def zlib (z : List UInt8) : Decoding (List UInt8) := do
  if Refused z then throw (bad "not a zlib stream")
  let bits : Bits := ⟨z.drop 2, 0, 0, 0⟩
  let (out, bits) ← blocks (bits.left + 1) [] bits
  let s ← (sums out : Option (ℕ × ℕ))
  if want z bits ≠ some (s.2 <<< 16 ||| s.1) then throw (bad "a zlib stream fails its checksum")
  return out

end Chatlink.Media.Inflate
