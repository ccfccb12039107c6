import Chatlink.Lib.Composing

/-!
# The Unicode of the byte-level tokenizers

The tables, the kinds of letters, and Normalization Form C: a text is decomposed, its marks are put in canonical order,
and it is composed again in one pass that keeps where the last starter is and the class of the last character kept.
-/
namespace Chatlink.Token.Nfc

/-! ## Hangul -/

/-- The first Hangul syllable, leading consonant, vowel and trailing consonant (less one: 0 is none). -/
def S0 : ℕ := 0xAC00
def L0 : ℕ := 0x1100
def V0 : ℕ := 0x1161
def T0 : ℕ := 0x11A7

/-- How many leading consonants, vowels and trailing consonants (with none) there are. -/
def LN : ℕ := 19
def VN : ℕ := 21
def TN : ℕ := 28

/-- Whether a character is a Hangul syllable. -/
def Syllable (c : ℕ) : Prop := S0 ≤ c ∧ c < S0 + LN * VN * TN

instance (c : ℕ) : Decidable (Syllable c) := inferInstanceAs (Decidable (_ ∧ _))

/-! ## The tables -/

/-- The tables of triples, each sorted: ranges of letters and marks with their kind, ranges of non-zero combining
classes, one level of decomposition (a character, its first, its second or 0), and compositions (first, second,
composite). No character decomposes into itself. -/
structure Tables where
  letters : List (ℕ × ℕ × ℕ)
  classes : List (ℕ × ℕ × ℕ)
  decomposed : List (ℕ × ℕ × ℕ)
  composed : List (ℕ × ℕ × ℕ)
  letters_sorted : letters.Pairwise fun e f => e.2.1 < f.1
  classes_sorted : classes.Pairwise fun e f => e.2.1 < f.1
  decomposed_sorted : decomposed.Pairwise fun e f => e.1 < f.1
  composed_sorted : composed.Pairwise fun e f => e.1 < f.1 ∨ e.1 = f.1 ∧ e.2.1 < f.2.1
  acyclic : WellFounded fun x c => ∃ e ∈ decomposed, e.1 = c ∧ (x = e.2.1 ∨ x = e.2.2)

/-- The value of the range that holds `c`, 0 if none does. -/
def lookup (ranges : List (ℕ × ℕ × ℕ)) (c : ℕ) : ℕ :=
  match ranges.find? fun e => c ≤ e.2.1 with
  | some e => if e.1 ≤ c then e.2.2 else 0
  | none => 0

variable (t : Tables)

/-- What a letter or mark is: 1 upper or title case, 2 lower case, 3 neither, 4 a mark; 0 anything else. -/
def kind (c : Char) : ℕ :=
  if 'A' ≤ c ∧ c ≤ 'Z' then 1
  else if 'a' ≤ c ∧ c ≤ 'z' then 2
  else if c.toNat < 128 then 0
  else lookup t.letters c.toNat

def is_letter (c : Char) : Bool := 1 ≤ kind t c && kind t c ≤ 3

/-- The row of the decompositions for `c`. -/
def Tables.row (c : ℕ) : Option (ℕ × ℕ × ℕ) := t.decomposed.find? fun e => e.1 == c

/-- Appends the full canonical decomposition of `c` to `out`. -/
def decompose (c : ℕ) (out : List ℕ) : List ℕ :=
  if Syllable c then
    let s := c - S0
    out ++ [L0 + s / (VN * TN), V0 + s % (VN * TN) / TN] ++ if s % TN ≠ 0 then [T0 + s % TN] else []
  else
    match _h : t.row c with
    | some e =>
      let first := decompose e.2.1 out
      if e.2.2 ≠ 0 then decompose e.2.2 first else first
    | none => out ++ [c]
termination_by t.acyclic.wrap c
decreasing_by
  all_goals
    have hmem := List.mem_of_find?_eq_some ‹_›
    have hkey := List.find?_some ‹_›
    exact ⟨e, hmem, by simpa using hkey, by simp⟩

/-- The canonical composition of `a` and `b`, if they have one. -/
def compose (a b : ℕ) : Option ℕ :=
  if (L0 ≤ a ∧ a < L0 + LN) ∧ V0 ≤ b ∧ b < V0 + VN then
    some (S0 + ((a - L0) * VN + b - V0) * TN)
  else if Syllable a ∧ (a - S0) % TN = 0 ∧ T0 + 1 ≤ b ∧ b < T0 + TN then
    some (a + b - T0)
  else
    (t.composed.find? fun e => e.1 == a && e.2.1 == b).map fun e => e.2.2

/-! ## The normal form -/

/-- Characters with their classes in canonical order: a stable sort of each run of marks by class. -/
def order : List (ℕ × ℕ) → List (ℕ × ℕ)
  | [] => []
  | e :: rest =>
    if e.2 = 0 then e :: order rest
    else
      (e :: rest.takeWhile fun f => f.2 ≠ 0).insertionSort (fun f g => f.2 ≤ g.2) ++
        order (rest.dropWhile fun f => f.2 ≠ 0)
termination_by l => l.length
decreasing_by
  · exact Nat.lt_succ_self _
  · exact Nat.lt_succ_of_le (List.length_dropWhile_le _ _)

/-- The pass that composes: what is out, where its last starter is, and the class of the last character put out. -/
structure Pass where
  out : List ℕ := []
  starter : Option ℕ := none
  last : ℕ := 0

/-- Whether the next character, of class `cc`, sees the last starter. -/
def Pass.opened (s : Pass) (cc i : ℕ) : Bool := s.out.length = i + 1 || (s.last ≠ 0 && s.last < cc)

/-- What the last starter and the next character compose to. The starter's place is always within what is out. -/
def Pass.composite (s : Pass) (c cc : ℕ) : Option ℕ :=
  (s.starter.filter (s.opened cc)).bind fun i => compose t (s.out.getD i 0) c

def Pass.step (s : Pass) (e : ℕ × ℕ) : Pass :=
  match s.composite t e.1 e.2 with
  | some composite => { s with out := s.out.set (s.starter.getD 0) composite }
  | none => { out := s.out ++ [e.1], starter := if e.2 = 0 then some s.out.length else s.starter, last := e.2 }

def fromU32 (c : ℕ) : Option Char := if c.isValidChar then some (Char.ofNat c) else none

/-- `text` in Normalization Form C. Text below U+0300 is already in it and comes back as it is. -/
def nfc (text : List Char) : List Char :=
  if text.all fun c => c.toNat < 0x300 then text
  else
    let d := text.foldl (fun d c => decompose t c.toNat d) []
    let order := order (d.map fun c => (c, lookup t.classes c))
    (order.foldl (Pass.step t) {}).out.filterMap fromU32

end Chatlink.Token.Nfc
