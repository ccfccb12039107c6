import Mathlib.Tactic

/-!
# DER, as certificates use it

A reader over consecutive elements, each a tag, a length and its content. Lengths take one
byte, or one to three bytes after a byte that counts them, and only the shortest form is read.
-/
namespace Chatlink.Net

/-- A big-endian number. -/
def big (bs : List UInt8) : ℕ := bs.foldl (fun n b => n * 256 + b.toNat) 0

/-- The last `len` bytes of a number, most significant first. -/
def bigBytes (len n : ℕ) : List UInt8 :=
  ((List.range len).map fun i => UInt8.ofNat (n / 256 ^ i)).reverse

/-- The elements still to be read. -/
abbrev Der := List UInt8

structure Element where
  tag : UInt8
  content : List UInt8
  whole : List UInt8
  deriving DecidableEq, Repr

namespace Der

/-- The length of the first element's content and of what stands before it. -/
def lengths (b : Der) (first : UInt8) : Option (ℕ × ℕ) :=
  if first ≤ 0x7f then some (first.toNat, 2)
  else if 0x81 ≤ first ∧ first ≤ 0x83 then
    let n := (first &&& 0x7f).toNat
    if 2 + n ≤ b.length then
      let len := big ((b.drop 2).take n)
      if len < 0x80 ∨ (1 < n ∧ b.getD 2 0 = 0) then none else some (len, 2 + n)
    else none
  else none

/-- The next element, and what follows it. -/
def next : Der → Option (Element × Der)
  | tag :: first :: rest => do
    let b := tag :: first :: rest
    let (len, head) ← lengths b first
    if head + len ≤ b.length then
      let whole := b.take (head + len)
      some (⟨tag, whole.drop head, whole⟩, b.drop (head + len))
    else none
  | _ => none

/-- The content of the next element, which must have `tag`. -/
def expect (tag : UInt8) (b : Der) : Option (List UInt8 × Der) := do
  let (e, rest) ← b.next
  if e.tag = tag then some (e.content, rest) else none

/-- The content of the next element if it has `tag`; otherwise nothing is consumed. -/
def optional (tag : UInt8) (b : Der) : Option (List UInt8) × Der :=
  if b.head? = some tag then
    match b.expect tag with
    | some (content, rest) => (some content, rest)
    | none => (none, b)
  else (none, b)

/-- The elements read until one does not parse; each takes two bytes at least. -/
def elementsFrom : ℕ → Der → List Element
  | 0, _ => []
  | fuel + 1, b =>
    match b.next with
    | some (e, rest) => e :: elementsFrom fuel rest
    | none => []

def elements (b : Der) : List Element := elementsFrom b.length b

end Der

/-- The magnitude of a minimally encoded, non-negative INTEGER. -/
def unsigned : List UInt8 → Option (List UInt8)
  | [] => none
  | b :: rest =>
    if b = 0 ∧ rest.head?.any (fun c => c &&& 0x80 != 0) then some rest
    else if b &&& 0x80 = 0 ∧ (rest = [] ∨ b ≠ 0) then some (b :: rest)
    else none

/-- One half of a raw signature, its number put at the end of 32 bytes. -/
def half (d : Der) : Option (List UInt8 × Der) := do
  let (content, d) ← d.expect 0x02
  let int ← unsigned content
  if int.length ≤ 32 then some (List.replicate (32 - int.length) 0 ++ int, d) else none

/-- The `r` and `s` of a DER signature, one after the other. -/
def rawSignature (der : List UInt8) : Option (List UInt8) := do
  let (content, outer) ← Der.expect 0x30 der
  let (r, d) ← half content
  let (s, d) ← half d
  if d = [] ∧ outer = [] then some (r ++ s) else none

/-! ### Times -/

/-- The day number of a civil date, counted from 1970-01-01. -/
def daysFromCivil (y m d : ℤ) : ℤ :=
  let y := if m ≤ 2 then y - 1 else y
  let era := y / 400
  let yoe := y - era * 400
  let doy := (153 * ((m + 9) % 12) + 2) / 5 + d - 1
  era * 146097 + yoe * 365 + yoe / 4 - yoe / 100 + doy - 719468

def isDigit (b : UInt8) : Bool := 0x30 ≤ b && b ≤ 0x39

/-- A run of decimal digits, at least one. -/
def digits (ds : List UInt8) : Option ℤ :=
  if ds ≠ [] ∧ ds.all isDigit then some (ds.foldl (fun n d => n * 10 + (d.toNat - 48 : ℕ)) 0)
  else none

/-- A signed number, as the standard library parses one. -/
def parseInt : List UInt8 → Option ℤ
  | 0x2b :: ds => digits ds
  | 0x2d :: ds => (digits ds).map Neg.neg
  | ds => digits ds

/-- The year, and the rest of the text, of a `UTCTime` (`0x17`) or a `GeneralizedTime`
(`0x18`). -/
def decodeYear (tag : UInt8) (text : List UInt8) : Option (ℤ × List UInt8) :=
  if tag = 0x17 ∧ text.length = 13 then
    (parseInt (text.take 2)).map fun yy => (if yy < 50 then 2000 + yy else 1900 + yy, text.drop 2)
  else if tag = 0x18 ∧ text.length = 15 then
    (parseInt (text.take 4)).map fun y => (y, text.drop 4)
  else none

/-- Seconds since the Unix epoch. -/
def decodeTime (tag : UInt8) (text : List UInt8) : Option ℤ := do
  if ByteArray.validateUTF8 ⟨text.toArray⟩ then
    let (year, rest) ← decodeYear tag text
    if rest.getLast? = some 0x5a ∧ (rest.take 10).all isDigit then
      let f (i : ℕ) : ℤ := (parseInt ((rest.drop (2 * i)).take 2)).getD 99
      if 1 ≤ f 0 ∧ f 0 ≤ 12 ∧ 1 ≤ f 1 ∧ f 1 ≤ 31 ∧ f 2 < 24 ∧ f 3 < 60 ∧ f 4 < 60 then
        some (daysFromCivil year (f 0) (f 1) * 86400 + f 2 * 3600 + f 3 * 60 + f 4)
      else none
    else none
  else none

end Chatlink.Net
