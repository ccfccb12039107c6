import Chatlink.Lib.Ascii
import Chatlink.Lib.Characters

/-!
# Documents

A document is read from its first byte to its last by one function for each kind of value, all at one position. Errors
name the position. Numbers are what the standard library reads and shows, and a parameter here.
-/
namespace Chatlink.Tachyon

/-- A value. Objects keep their keys in document order. -/
inductive Json (F : Type) where
  | null
  | bool (b : Bool)
  | num (n : F)
  | str (s : List Char)
  | arr (xs : List (Json F))
  | obj (fields : List (List Char × Json F))

namespace Json

open Ascii

/-! ## Reading -/

def QUOTE : UInt8 := 0x22

def BACKSLASH : UInt8 := 0x5c

def OPEN : UInt8 := 0x7b

def CLOSE : UInt8 := 0x7d

def fail {α : Type} (what : String) (i : ℕ) : Except String α :=
  .error ("JSON: " ++ what ++ " at byte " ++ toString i)

/-- The position behind white space. -/
def space (s : List UInt8) (i : ℕ) : ℕ := i + ((s.drop i).takeWhile isWhitespace).length

/-- The position behind `word`, if that is next. -/
def eat (s : List UInt8) (i : ℕ) (word : List UInt8) : Option ℕ :=
  if word <+: s.drop i then some (i + word.length) else none

/-- A byte of a number. -/
def numeric (c : UInt8) : Bool := c ∈ byteString "+-.eE0123456789"

def isDigit (c : UInt8) : Bool := 0x30 ≤ c ∧ c ≤ 0x39

section Strings

variable (s : List UInt8)

/-- Four digits; a sign may stand in the first's place. -/
def hex (i : ℕ) : Except String (ℕ × ℕ) :=
  let d := (s.drop i).take 4
  let digits := if d.head? = some 0x2b then d.tail else d
  match if d.length = 4 then hexNumber 0 digits else none with
  | some n => .ok (n, i + 4)
  | none => fail "bad \\u escape" (i + 4)

/-- The character of a number, U+FFFD if there is none. -/
def fromU32 (n : UInt32) : Char :=
  if n.toNat < 0xd800 ∨ 0xdfff < n.toNat ∧ n.toNat < 0x110000 then Char.ofNat n.toNat else Utf8.REPLACEMENT

/-- The character of two escapes. The difference wraps, as it does in a release build. -/
def pairCode (hi lo : ℕ) : UInt32 := (0x10000 : UInt32) + ((UInt32.ofNat hi - 0xd800) <<< 10) + (UInt32.ofNat lo - 0xdc00)

/-- The four digits of an escape, with a second one for a surrogate pair. -/
def unicode (i : ℕ) : Except String (Char × ℕ) := do
  let (hi, i) ← hex s i
  if 0xd800 ≤ hi ∧ hi < 0xdc00 then
    match eat s i (byteString "\\u") with
    | some i => do
      let (lo, i) ← hex s i
      .ok (fromU32 (pairCode hi lo), i)
    | none => .ok (fromU32 (UInt32.ofNat hi), i)
  else .ok (fromU32 (UInt32.ofNat hi), i)

/-- The character of the escape after a backslash. -/
def escape (i : ℕ) : Except String (Char × ℕ) :=
  match s[i]? with
  | none => fail "unterminated escape" i
  | some c =>
    if c = 0x6e then .ok ('\n', i + 1)
    else if c = 0x74 then .ok ('\t', i + 1)
    else if c = 0x72 then .ok ('\r', i + 1)
    else if c = 0x62 then .ok (Char.ofNat 8, i + 1)
    else if c = 0x66 then .ok (Char.ofNat 12, i + 1)
    else if c = 0x75 then unicode s (i + 1)
    else .ok (Char.ofNat c.toNat, i + 1)

/-- A byte of a string that stands for itself. -/
def plain (b : UInt8) : Bool := b ≠ QUOTE && b ≠ BACKSLASH

/-- The rest of a string, run by run; each escape takes one of `fuel`. -/
def stringLoop : ℕ → ℕ → List UInt8 → Except String (List Char × ℕ)
  | 0, i, _ => fail "unterminated string" i
  | fuel + 1, i, out =>
    let run := (s.drop i).takeWhile plain
    match (s.drop i).drop run.length with
    | [] => fail "unterminated string" i
    | b :: _ =>
      let i := i + run.length + 1
      if b = QUOTE then
        match Utf8.fromUtf8 (out ++ run) with
        | .ok t => .ok (t, i)
        | .error _ => fail "invalid UTF-8" i
      else do
        let (c, i) ← escape s i
        stringLoop fuel i (out ++ run ++ String.utf8EncodeChar c)

def string (i : ℕ) : Except String (List Char × ℕ) :=
  match eat s i [QUOTE] with
  | none => fail "expected a string" i
  | some i => stringLoop s (s.length + 1) i []

end Strings

section Values

variable {F : Type} (read : List UInt8 → Option F) (s : List UInt8)

/-- The items of a list up to `close`; each takes one of `fuel`. -/
def listLoop {α : Type} (close : UInt8) (item : ℕ → Except String (α × ℕ)) : ℕ → ℕ → List α → Except String (List α × ℕ)
  | 0, i, _ => fail "expected ',' or the end of a list" i
  | fuel + 1, i, out => do
    let (x, i) ← item i
    let i := space s i
    match eat s i [close] with
    | some i => .ok (out ++ [x], i)
    | none =>
      match eat s i [0x2c] with
      | some i => listLoop close item fuel (space s i) (out ++ [x])
      | none => fail "expected ',' or the end of a list" i

/-- The items of an array or object opened at `i`. -/
def list {α : Type} (close : UInt8) (item : ℕ → Except String (α × ℕ)) (i : ℕ) : Except String (List α × ℕ) :=
  let i := space s (i + 1)
  match eat s i [close] with
  | some i => .ok ([], i)
  | none => listLoop s close item (s.length + 1) i []

def number (i : ℕ) : Except String (Json F × ℕ) :=
  let text := (s.drop i).takeWhile numeric
  match read text with
  | some n => .ok (.num n, i + text.length)
  | none => fail "expected a value" (i + text.length)

def word (i : ℕ) : Except String (Json F × ℕ) :=
  match eat s i (byteString "null") with
  | some i => .ok (.null, i)
  | none =>
    match eat s i (byteString "true") with
    | some i => .ok (.bool true, i)
    | none =>
      match eat s i (byteString "false") with
      | some i => .ok (.bool false, i)
      | none => fail "expected a value" i

def member (value : ℕ → Except String (Json F × ℕ)) (i : ℕ) : Except String ((List Char × Json F) × ℕ) := do
  let (k, i) ← string s i
  let i := space s i
  match eat s i [0x3a] with
  | none => fail "expected ':'" i
  | some i => do
    let (v, i) ← value i
    .ok ((k, v), i)

/-- A value behind white space; each level of nesting takes one of `fuel`. -/
def value : ℕ → ℕ → Except String (Json F × ℕ)
  | 0, i => fail "expected a value" i
  | fuel + 1, i =>
    let i := space s i
    match s[i]? with
    | some c =>
      if c = OPEN then (list s CLOSE (member s (value fuel)) i).map fun r => (.obj r.1, r.2)
      else if c = 0x5b then (list s 0x5d (value fuel) i).map fun r => (.arr r.1, r.2)
      else if c = QUOTE then (string s i).map fun r => (.str r.1, r.2)
      else if isDigit c || c = 0x2d then number read s i
      else word s i
    | none => word s i

/-- A document: a value with white space around it and nothing else. -/
def parse : Except String (Json F) := do
  let (v, i) ← value read s (s.length + 1) 0
  let i := space s i
  if i = s.length then .ok v else fail "trailing characters" i

end Values

/-! ## Writing -/

/-- A character of a string, escaped if it must be. -/
def quotedChar (c : Char) : List Char :=
  if c = '"' ∨ c = '\\' then ['\\', c]
  else if c = '\n' then ['\\', 'n']
  else if c = '\r' then ['\\', 'r']
  else if c = '\t' then ['\\', 't']
  else if c.toNat < 0x20 then '\\' :: 'u' :: (hexDigits 4 c.toNat).map fun b => Char.ofNat b.toNat
  else [c]

def quoted (s : List Char) : List Char := '"' :: (s.flatMap quotedChar ++ ['"'])

section Dumps

variable {F : Type} (shown : F → List Char)

mutual

def dumps : Json F → List Char
  | .null => "null".toList
  | .bool b => (if b then "true" else "false").toList
  | .num n => shown n
  | .str s => quoted s
  | .arr xs => '[' :: (List.intercalate [',', ' '] (dumpsItems xs) ++ [']'])
  | .obj fields => '{' :: (List.intercalate [',', ' '] (dumpsMembers fields) ++ ['}'])

def dumpsItems : List (Json F) → List (List Char)
  | [] => []
  | x :: xs => dumps x :: dumpsItems xs

def dumpsMembers : List (List Char × Json F) → List (List Char)
  | [] => []
  | (k, v) :: fields => (quoted k ++ ':' :: ' ' :: dumps v) :: dumpsMembers fields

end

end Dumps

end Json

end Chatlink.Tachyon
