import Chatlink.Lib.Regex

/-!
# Texts as the program sees them

A text is a list of code points. Case mapping, normal forms, the character
classes of the regular expressions and the decimal digits come from the Unicode
tables of the interpreter: they are one parameter, so that everything proved
below holds for any version of the tables. What the proofs use of the tables is a
field of the structure that holds them.
-/
namespace Chatlink

abbrev Texto := List Char

instance : Coe String Texto := ⟨String.toList⟩

namespace Texto

/-- The characters of `str.isspace`, which are also those of `\s`. -/
def isSpace (c : Char) : Bool :=
  let n := c.toNat
  (9 ≤ n && n ≤ 13) || (28 ≤ n && n ≤ 32) || n == 0x85 || n == 0xA0 || n == 0x1680 ||
    (0x2000 ≤ n && n ≤ 0x200A) || n == 0x2028 || n == 0x2029 || n == 0x202F ||
    n == 0x205F || n == 0x3000

/-- Line ends of `str.splitlines`; `\r\n` counts as one. -/
def isLineEnd (c : Char) : Bool :=
  let n := c.toNat
  (10 ≤ n && n ≤ 13) || (28 ≤ n && n ≤ 30) || n == 0x85 || n == 0x2028 || n == 0x2029

def lstripBy (p : Char → Bool) (s : Texto) : Texto := s.dropWhile p
def rstripBy (p : Char → Bool) (s : Texto) : Texto := (s.reverse.dropWhile p).reverse
def stripBy (p : Char → Bool) (s : Texto) : Texto := rstripBy p (lstripBy p s)

def rstrip (s : Texto) : Texto := rstripBy isSpace s
def strip (s : Texto) : Texto := stripBy isSpace s

/-- `s.strip(chars)`. -/
def stripChars (chars : Texto) (s : Texto) : Texto := stripBy chars.contains s

/-- `sub in s`. -/
def contains (s sub : Texto) : Bool :=
  match s with
  | [] => sub.isEmpty
  | c :: t => sub.isPrefixOf (c :: t) || contains t sub

def replaceFrom (old new : Texto) : ℕ → Texto → Texto
  | 0, s => s
  | _ + 1, [] => []
  | n + 1, c :: s =>
    if old.isPrefixOf (c :: s) then new ++ replaceFrom old new n ((c :: s).drop old.length)
    else c :: replaceFrom old new n s

/-- `s.replace(old, new)` for a non-empty `old`. -/
def replace (s old new : Texto) : Texto := replaceFrom old new s.length s

/-- The maximal runs of characters of a class: `re.findall("[p]+", s)`. -/
def runsFrom (p : Char → Bool) : Texto → Texto → List Texto
  | acc, [] => if acc.isEmpty then [] else [acc.reverse]
  | acc, c :: s =>
    if p c then runsFrom p (c :: acc) s
    else if acc.isEmpty then runsFrom p [] s
    else acc.reverse :: runsFrom p [] s

def runs (p : Char → Bool) (s : Texto) : List Texto := runsFrom p [] s

theorem runsFrom_map {p : Char → Bool} {f : Char → Char} (hp : ∀ c, p (f c) = p c)
    (hf : ∀ c, p c → f c = c) (s acc : Texto) : runsFrom p acc (s.map f) = runsFrom p acc s := by
  induction s generalizing acc with
  | nil => rfl
  | cons c s ih =>
    cases h : p c with
    | true => simp [runsFrom, h, hf c h, ih]
    | false => simp [runsFrom, hp, h, ih]

/-- `s.split()`. -/
def split (s : Texto) : List Texto := runs (fun c => !isSpace c) s

/-- `re.split("[p]+", s)`: the pieces between the runs of separators. -/
def splitOnRuns (p : Char → Bool) : Bool → Texto → Texto → List Texto
  | _, acc, [] => [acc.reverse]
  | inRun, acc, c :: s =>
    if p c then
      if inRun then splitOnRuns p true acc s else acc.reverse :: splitOnRuns p true [] s
    else splitOnRuns p false (c :: acc) s

/-- `s.split(sep)` for a one-character separator. -/
def splitChar (sep : Char) : Texto → Texto → List Texto
  | acc, [] => [acc.reverse]
  | acc, c :: s =>
    if c = sep then acc.reverse :: splitChar sep [] s else splitChar sep (c :: acc) s

/-- `re.sub("[p]+", " ", s)`. -/
def collapseBy (p : Char → Bool) : Bool → Texto → Texto
  | _, [] => []
  | inRun, c :: s =>
    if p c then
      if inRun then collapseBy p true s else ' ' :: collapseBy p true s
    else c :: collapseBy p false s

def collapse (s : Texto) : Texto := collapseBy isSpace false s

def splitlinesFrom : Texto → Texto → List Texto
  | acc, [] => if acc.isEmpty then [] else [acc.reverse]
  | acc, '\r' :: '\n' :: s => acc.reverse :: splitlinesFrom [] s
  | acc, c :: s =>
    if isLineEnd c then acc.reverse :: splitlinesFrom [] s else splitlinesFrom (c :: acc) s

def splitlines (s : Texto) : List Texto := splitlinesFrom [] s

def join (sep : Texto) (parts : List Texto) : Texto := sep.intercalate parts

/-- Python's `a or b` on texts. -/
def orElse (a b : Texto) : Texto := if a.isEmpty then b else a

def ofNat (n : ℕ) : Texto := (toString n).toList
def ofInt (n : ℤ) : Texto := (toString n).toList

end Texto

/-- The part of the Unicode tables that the program reads. `decimal` is the value
of a character of class `\d`, `digit` is `str.isdigit`, `word` is `\w`, `sameCase`
is the comparison of `re.I` (pattern character first), `printable` is
`str.isprintable`. -/
structure Unicode where
  lower : Texto → Texto
  upper : Texto → Texto
  title : Texto → Texto
  nfd : Texto → Texto
  nfkd : Texto → Texto
  mark : Char → Bool
  combining : Char → Bool
  decimal : Char → Option ℕ
  digit : Char → Bool
  word : Char → Bool
  sameCase : Char → Char → Bool
  printable : Char → Bool
  /-- Among the ASCII characters the decimal digits are `0` to `9`. -/
  decimal_ascii : ∀ c, c.toNat < 128 →
    decimal c = if 48 ≤ c.toNat ∧ c.toNat ≤ 57 then some (c.toNat - 48) else none
  /-- White space is not a digit. -/
  decimal_space : ∀ c, Texto.isSpace c → decimal c = none
  /-- The block of general punctuation holds no digit. -/
  decimal_punctuation : ∀ c, 0x2000 ≤ c.toNat → c.toNat ≤ 0x206F → decimal c = none
  /-- A character that differs in case from a letter is not a digit. -/
  decimal_sameCase : ∀ p c, sameCase p c → decimal p = none → decimal c = none
  lower_nil : lower [] = []
  /-- Lower case leaves the runs of digits as they are. -/
  runs_lower : ∀ s, Texto.runs (fun c => (decimal c).isSome) (lower s) =
    Texto.runs (fun c => (decimal c).isSome) s

namespace Unicode

variable (U : Unicode)

/-- `str.isdigit`. -/
def isdigit (s : Texto) : Bool := !s.isEmpty && s.all U.digit

def isDecimal (c : Char) : Bool := (U.decimal c).isSome

/-- The value of a run of decimal digits. -/
def numberOf (s : Texto) : ℕ := s.foldl (fun n c => 10 * n + (U.decimal c).getD 0) 0

/-- Digits of an `int(...)` literal, single underscores between digits allowed. -/
def intDigits : Option ℕ → Texto → Option ℕ
  | acc, [] => acc
  | none, c :: s => (U.decimal c).bind fun d => intDigits (some d) s
  | some n, '_' :: c :: s => (U.decimal c).bind fun d => intDigits (some (10 * n + d)) s
  | some n, c :: s => (U.decimal c).bind fun d => intDigits (some (10 * n + d)) s

/-- `int(s)` on a string; `none` is `ValueError`. -/
def intOf (s : Texto) : Option ℤ :=
  match Texto.strip s with
  | '-' :: t => (U.intDigits none t).map fun n => -(n : ℤ)
  | '+' :: t => (U.intDigits none t).map fun n => (n : ℤ)
  | t => (U.intDigits none t).map fun n => (n : ℤ)

/-- One character of a `repr`, between the quotes `q`. -/
def reprChar (q c : Char) : Texto :=
  let hex (width : ℕ) : Texto :=
    let digits := Nat.toDigits 16 c.toNat
    List.replicate (width - digits.length) '0' ++ digits
  if c = q ∨ c = '\\' then ['\\', c]
  else if c = '\n' then ['\\', 'n']
  else if c = '\r' then ['\\', 'r']
  else if c = '\t' then ['\\', 't']
  else if U.printable c then [c]
  else if c.toNat < 0x100 then '\\' :: 'x' :: hex 2
  else if c.toNat < 0x10000 then '\\' :: 'u' :: hex 4
  else '\\' :: 'U' :: hex 8

/-- `repr(s)` of a text. -/
def repr (s : Texto) : Texto :=
  let q := if '\x27' ∈ s ∧ '\x22' ∉ s then '\x22' else '\x27'
  q :: s.flatMap (U.reprChar q) ++ [q]

/-- Equality of `re.I` against a fixed character. -/
def ch (c : Char) : Regex.Re := .chr (U.sameCase c)

/-- A literal of a case-insensitive pattern. -/
def lit (s : String) : Regex.Re := .all (s.toList.map U.ch)

/-! ## The tables on the letters of Spanish -/

def lowerChar (c : Char) : Char :=
  if 'A' ≤ c ∧ c ≤ 'Z' then Char.ofNat (c.toNat + 32)
  else match c with
    | 'Á' => 'á' | 'É' => 'é' | 'Í' => 'í' | 'Ó' => 'ó' | 'Ú' => 'ú' | 'Ü' => 'ü' | 'Ñ' => 'ñ'
    | c => c

def upperChar (c : Char) : Char :=
  if 'a' ≤ c ∧ c ≤ 'z' then Char.ofNat (c.toNat - 32)
  else match c with
    | 'á' => 'Á' | 'é' => 'É' | 'í' => 'Í' | 'ó' => 'Ó' | 'ú' => 'Ú' | 'ü' => 'Ü' | 'ñ' => 'Ñ'
    | c => c

def letter (c : Char) : Bool := ('a' ≤ lowerChar c ∧ lowerChar c ≤ 'z') || upperChar c ≠ lowerChar c

/-- Base letter and combining mark of an accented letter. -/
def decompose (c : Char) : Texto :=
  match c with
  | 'á' => ['a', '\u0301'] | 'é' => ['e', '\u0301'] | 'í' => ['i', '\u0301']
  | 'ó' => ['o', '\u0301'] | 'ú' => ['u', '\u0301'] | 'ü' => ['u', '\u0308']
  | 'ñ' => ['n', '\u0303'] | 'Á' => ['A', '\u0301'] | 'É' => ['E', '\u0301']
  | 'Í' => ['I', '\u0301'] | 'Ó' => ['O', '\u0301'] | 'Ú' => ['U', '\u0301']
  | 'Ü' => ['U', '\u0308'] | 'Ñ' => ['N', '\u0303'] | c => [c]

def titleFrom : Bool → Texto → Texto
  | _, [] => []
  | inWord, c :: s => (if inWord then lowerChar c else upperChar c) :: titleFrom (letter c) s

def latinDecimal (c : Char) : Option ℕ :=
  if 48 ≤ c.toNat ∧ c.toNat ≤ 57 then some (c.toNat - 48) else none

/-- Lower case fixes a character, or takes a letter to a letter. -/
theorem lowerChar_cases (c : Char) :
    lowerChar c = c ∨ (latinDecimal c = none ∧ latinDecimal (lowerChar c) = none) := by
  unfold lowerChar
  split
  · next h =>
    right
    have h1 : 65 ≤ c.toNat := h.1
    have h2 : c.toNat ≤ 90 := h.2
    have h3 : (Char.ofNat (c.toNat + 32)).toNat = c.toNat + 32 := by
      have hv : (c.toNat + 32).isValidChar := Or.inl (by omega)
      simp only [Char.ofNat, dif_pos hv]
      rfl
    constructor
    · exact if_neg (by omega)
    · exact if_neg (by omega)
  · split
    all_goals first
      | exact Or.inr ⟨rfl, rfl⟩
      | exact Or.inl rfl

theorem latinDecimal_lowerChar (c : Char) : latinDecimal (lowerChar c) = latinDecimal c := by
  rcases lowerChar_cases c with h | ⟨h, h'⟩
  · rw [h]
  · rw [h, h']

/-- The tables restricted to ASCII and the accented letters of Spanish. -/
def latin : Unicode where
  lower := List.map lowerChar
  upper := List.map upperChar
  title := titleFrom false
  nfd := List.flatMap decompose
  nfkd := List.flatMap decompose
  mark c := '\u0300' ≤ c && c ≤ '\u036F'
  combining c := '\u0300' ≤ c && c ≤ '\u036F'
  decimal := latinDecimal
  digit c := '0' ≤ c && c ≤ '9'
  word c := letter c || ('0' ≤ c && c ≤ '9') || c = '_'
  sameCase p c := lowerChar p = lowerChar c
  printable c := (32 ≤ c.toNat && c.toNat < 127) || (160 < c.toNat && c.toNat ≠ 173)
  decimal_ascii c _ := rfl
  decimal_space c h := by
    apply if_neg
    simp only [Texto.isSpace, Bool.or_eq_true, Bool.and_eq_true, decide_eq_true_eq,
      beq_iff_eq] at h
    omega
  decimal_punctuation c h _ := if_neg (by omega)
  decimal_sameCase p c h hp := by
    rw [← latinDecimal_lowerChar, ← of_decide_eq_true h, latinDecimal_lowerChar, hp]
  lower_nil := rfl
  runs_lower s := by
    apply Texto.runsFrom_map
    · intro c
      rw [latinDecimal_lowerChar]
    · intro c h
      rcases lowerChar_cases c with hc | ⟨hc, -⟩
      · exact hc
      · simp [hc] at h

end Unicode
end Chatlink
