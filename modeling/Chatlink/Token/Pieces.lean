import Chatlink.Lib.Choice
import Chatlink.Token.Source
import Chatlink.Token.Unicode

/-!
# Pieces of a byte-level text

The text is first cut into pieces that no merge crosses, by one of three regular expressions, matched by hand: the
scanners look at a character or two, take runs, and give back what the expressions give back. Lengths are counted in
characters.
-/
namespace Chatlink.Token.Pieces

open Nfc

/-! ## Classes -/

/-- The Unicode data the scanners read: the tables of letters and marks, and what the standard library says of numbers
and white space. No character is in two of the categories. -/
structure Categories where
  tables : Tables
  is_numeric : Char → Bool
  is_whitespace : Char → Bool
  kind_le : ∀ c, kind tables c ≤ 4
  kind_numeric : ∀ c, is_numeric c → kind tables c = 0
  kind_whitespace : ∀ c, is_whitespace c → kind tables c = 0
  numeric_whitespace : ∀ c, is_numeric c → is_whitespace c = false
  ascii_numeric : ∀ c : Char, c.toNat < 128 → is_numeric c = c.isDigit
  ascii_whitespace : ∀ c : Char, c.toNat < 128 → is_whitespace c = (c == ' ' || 9 ≤ c.toNat && c.toNat ≤ 13)
  kind_long_s : kind tables 'ſ' = 2

/-- What a character is to the patterns. -/
inductive Class where
  | letter
  | number
  | space
  | other
  deriving DecidableEq, Repr

namespace Categories

variable (C : Categories)

def kind (c : Char) : ℕ := Nfc.kind C.tables c

def is_letter (c : Char) : Bool := Nfc.is_letter C.tables c

def classOf (c : Char) : Class :=
  if C.is_letter c then .letter
  else if C.is_numeric c then .number
  else if C.is_whitespace c then .space
  else .other

end Categories

/-! ## The scanners -/

/-- The longest run of characters at the start of `s` that `keep` accepts. -/
def run (s : List Char) (keep : Char → Bool) : ℕ := (s.takeWhile keep).length

/-- The same, of at most `most` of them. -/
def runOf (s : List Char) (most : ℕ) (keep : Char → Bool) : ℕ := ((s.take most).takeWhile keep).length

/-- A contraction at the start of `s`, in any case if `fold`: its characters. -/
def contraction (s : List Char) (fold : Bool) : Option ℕ :=
  match s with
  | '\'' :: rest =>
    let lower (i : ℕ) : Option Char := rest[i]?.map fun c => if fold then c.toLower else c
    match lower 0, lower 1 with
    | none, _ => none
    | some c, d =>
      if c = 's' ∨ c = 't' ∨ c = 'm' ∨ c = 'd' then some 2
      else if (c = 'r' ∨ c = 'v') ∧ d = some 'e' ∨ c = 'l' ∧ d = some 'l' then some 3
      else none
  | _ => none

variable (C : Categories)

/-- Of a text that begins with white space: the run, less its last character when more text follows and the run is
longer than one. -/
def spaces (s : List Char) : ℕ :=
  let n := run s C.is_whitespace
  if n < s.length ∧ 0 < n - 1 then n - 1 else n

/-- The length of the GPT-2 pattern's match at the start of `s`. -/
def gpt2 (s : List Char) : ℕ :=
  match contraction s false with
  | some n => n
  | none =>
    let skip := if s.head? = some ' ' then 1 else 0
    match (s.drop skip).head?.map C.classOf with
    | some .letter => skip + run (s.drop skip) fun d => C.classOf d = .letter
    | some .number => skip + run (s.drop skip) fun d => C.classOf d = .number
    | some .other => skip + run (s.drop skip) fun d => C.classOf d = .other
    | _ => spaces C s

/-- The last place in `l` where `p` holds. -/
def rfind (p : Char → Bool) : List Char → Option ℕ
  | [] => none
  | c :: l =>
    match rfind p l with
    | some i => some (i + 1)
    | none => if p c then some 0 else none

def newline (c : Char) : Bool := c == '\r' || c == '\n'

/-- The last alternatives of cl100k and o200k: symbols, or white space up to its last line break. -/
def rest (s : List Char) (symbols slash : Bool) : ℕ :=
  if symbols then
    let skip := if s.head? = some ' ' then 1 else 0
    let n := skip + run (s.drop skip) fun c => C.classOf c = .other
    n + run (s.drop n) fun c => newline c || slash && c == '/'
  else
    let n := run s C.is_whitespace
    match rfind newline (s.take n) with
    | some last => last + 1
    | none => spaces C s

/-- The length of the cl100k pattern's match at the start of `s`. -/
def cl100k (s : List Char) : ℕ :=
  match contraction s true with
  | some n => n
  | none =>
    let c0 := s.head?.getD ' '
    let c1 := s[1]?
    let letters (start : ℕ) : ℕ := start + run (s.drop start) C.is_letter
    match C.classOf c0 with
    | .letter => letters 0
    | .number => runOf s 3 C.is_numeric
    | c =>
      if !newline c0 && c1.any C.is_letter then letters 1
      else rest C s (c = .other || c0 = ' ' && c1.any fun c => C.classOf c = .other) false

/-- `U*W+` (or with `upper_first`, `U+W*`) at the start of `s`, if it matches there: the longest run of `U` that `W` can
still follow, then the longest run of `W`. -/
def word (s : List Char) (upper_first : Bool) : Option ℕ :=
  let run_of := (s.map C.kind).takeWhile fun k => k ≠ 0
  let most := (run_of.takeWhile fun k => k ≠ 2).length
  let stop (a : ℕ) : ℕ := a + ((run_of.drop a).takeWhile fun k => 2 ≤ k).length
  if upper_first then if 0 < most then some (stop most) else none
  else ((List.range (most + 1)).reverse.find? fun a => a < stop a).map stop

/-- The length of the o200k pattern's match at the start of `s`. -/
def o200k (s : List Char) : ℕ :=
  let c0 := s.head?.getD ' '
  let front : List ℕ := if !newline c0 && !C.is_letter c0 && !C.is_numeric c0 then [1] else []
  -- Each word alternative with its optional first character, then without it.
  let tried : List (Bool × ℕ) := [false, true].flatMap fun upper_first => (front ++ [0]).map fun start => (upper_first, start)
  match tried.findSome? fun (upper_first, start) => (word C (s.drop start) upper_first).map fun n => start + n with
  | some stop => stop + (contraction (s.drop stop) true).getD 0
  | none =>
    if C.is_numeric c0 then runOf s 3 C.is_numeric
    else
      let c1 := s[1]?
      rest C s (C.classOf c0 = .other || c0 = ' ' && c1.any fun c => C.classOf c = .other) true

/-- The length of the next piece. -/
def next (p : Pattern) (s : List Char) : ℕ :=
  match p with
  | .gpt2 => gpt2 C s
  | .cl100k => cl100k C s
  | .o200k => o200k C s

/-- The pieces that the pattern cuts a text into, in order. The fuel bounds how many. -/
def piecesFrom (p : Pattern) : ℕ → List Char → List (List Char)
  | 0, _ => []
  | fuel + 1, s => if s = [] then [] else s.take (next C p s) :: piecesFrom p fuel (s.drop (next C p s))

def pieces (p : Pattern) (text : List Char) : List (List Char) := piecesFrom C p text.length text

end Chatlink.Token.Pieces
