import Mathlib.Tactic

/-!
# IP addresses in text

The standard library's parser: four decimal numbers without leading zeros; or up to eight
groups of hexadecimal digits, the last two possibly written as a version 4 address, with `::`
once in the place of one or more groups of zeros.
-/
namespace Chatlink.Net.IpAddr

def hexDigit (c : Char) : Option ℕ :=
  if c.isDigit then some (c.toNat - 48)
  else if 'a' ≤ c ∧ c ≤ 'f' then some (c.toNat - 87)
  else if 'A' ≤ c ∧ c ≤ 'F' then some (c.toNat - 55)
  else none

def digit (radix : ℕ) (c : Char) : Option ℕ := (hexDigit c).filter (· < radix)

/-- A number of at most `most` digits and below `limit`, with no leading zero unless
`zeros`. -/
def number (radix most limit : ℕ) (zeros : Bool) (s : List Char) : Option (ℕ × List Char) :=
  let ds := s.takeWhile fun c => (digit radix c).isSome
  let n := ds.foldl (fun n c => n * radix + (digit radix c).getD 0) 0
  if ds = [] ∨ most < ds.length ∨ limit ≤ n ∨ (¬zeros ∧ s.head? = some '0' ∧ 1 < ds.length) then
    none
  else some (n, s.drop ds.length)

/-- What `p` reads, after a separator unless it comes first. -/
def separated {α : Type} (sep : Char) (first : Bool) (p : List Char → Option (α × List Char)) :
    List Char → Option (α × List Char)
  | s => if first then p s else
    match s with
    | c :: s => if c = sep then p s else none
    | [] => none

def octet (first : Bool) (s : List Char) : Option (ℕ × List Char) :=
  separated '.' first (number 10 3 256 false) s

def v4 (s : List Char) : Option (List UInt8 × List Char) := do
  let (a, s) ← octet true s
  let (b, s) ← octet false s
  let (c, s) ← octet false s
  let (d, s) ← octet false s
  pure ([a, b, c, d].map UInt8.ofNat, s)

/-- Up to as many groups of two bytes as are given; whether a version 4 address, which takes
the place of two, ended them. -/
def groups : ℕ → Bool → List Char → List UInt8 × Bool × List Char
  | 0, _, s => ([], false, s)
  | left + 1, first, s =>
    match if 0 < left then separated ':' first v4 s else none with
    | some (octets, s) => (octets, true, s)
    | none =>
      match separated ':' first (number 16 4 65536 true) s with
      | some (g, s) =>
        let (rest, ended, s) := groups left false s
        (UInt8.ofNat (g / 256) :: UInt8.ofNat g :: rest, ended, s)
      | none => ([], false, s)

def v6 (s : List Char) : Option (List UInt8 × List Char) :=
  let (head, ended, s) := groups 8 true s
  if head.length = 16 then some (head, s)
  else if ended then none
  else
    match s with
    | ':' :: ':' :: s =>
      let (tail, _, s) := groups (8 - (head.length / 2 + 1)) true s
      some (head ++ List.replicate (16 - head.length - tail.length) 0 ++ tail, s)
    | _ => none

/-- The bytes of the address a whole text spells. -/
def parse (s : String) : Option (List UInt8) :=
  match (v4 s.toList).orElse fun _ => v6 s.toList with
  | some (octets, []) => some octets
  | _ => none

end Chatlink.Net.IpAddr
