import Chatlink.Lib.Partition
import Chatlink.Token.Pieces
import Chatlink.Token.Tables

/-!
# Encoding

Added tokens are found first, the longest at each place. The text between them is cut before spaces, or by the pattern of a
byte-level tokenizer, and each piece is merged on its own. `none` where the program panics or does not return.
-/
namespace Chatlink.Token

open Pieces

/-- Words in pairs; a last one alone is left. -/
def pairsOf : List UInt32 → List (UInt32 × UInt32)
  | a :: b :: rest => (a, b) :: pairsOf rest
  | _ => []

/-- How many characters the first `n` bytes of a text are, if they are whole ones. -/
def charsIn : List Char → ℕ → Option ℕ
  | _, 0 => some 0
  | [], _ + 1 => none
  | c :: text, n + 1 =>
    let size := (String.utf8EncodeChar c).length
    if size ≤ n + 1 then (charsIn text (n + 1 - size)).map (· + 1) else none

namespace Tokenizer

variable (C : Categories) (t : Tokenizer)

/-! ## Symbols -/

/-- The token of a character. -/
def charId (c : Char) : UInt32 :=
  (t.chars[c.toNat]?).getD (((pairsOf t.rare).find? fun p => p.1 = c.val).elim NONE Prod.snd)

/-- The token of a byte. -/
def byteId (b : UInt8) : UInt32 := t.bytes.getD b.toNat NONE

/-- A character as it is in the vocabulary. -/
def mark (c : Char) : Char := if c = ' ' ∧ has t.flags META then '▁' else c

/-- The byte tokens of a character, if the vocabulary falls back to them and has them all. -/
def byteIds (c : Char) : Option (List UInt32) :=
  (String.utf8EncodeChar c).mapM fun b => (some (t.byteId b)).filter fun id => id ≠ NONE ∧ has t.flags BYTES

/-- Appends the tokens of a character: its own, or those of its bytes, or the unknown one unless that is there already. -/
def symbol (ids : List UInt32) (c : Char) : List UInt32 :=
  let c := t.mark c
  let id := t.charId c
  if id ≠ NONE then ids ++ [id]
  else
    match t.byteIds c with
    | some bytes => ids ++ bytes
    | none => if ids.getLast? ≠ some t.unk ∧ t.unk ≠ NONE then ids ++ [t.unk] else ids

/-- The tokens before merging. -/
def symbols (text : List Char) : List UInt32 := text.foldl t.symbol []

/-- The row that a text is merged from. -/
def row (text : List Char) : List UInt32 := if has t.flags BYTE_LEVEL then (Utf8.bytes text).map t.byteId else t.symbols text

/-- The tokens of a text, merged. -/
def mergeText (text : List Char) : Option (List UInt32) := mergeAll t.merge (t.row text)

/-! ## Pieces -/

/-- Whether the text is cut between `last` and `c`: before a space, unless a token joins `last` to it. -/
def cuts (last c : Char) : Bool :=
  let space := c == ' ' || c == '▁'
  let joined := last == ' ' || last == '▁' || t.joins.contains last.val
  space && has t.flags META && (has t.flags SPLIT || !joined)

/-- The pieces of a text between the cuts, where `piece` has been read, and `last` last. -/
def cutFrom (last : Char) (piece : List Char) : List Char → List (List Char)
  | [] => if piece = [] then [] else [piece]
  | c :: text =>
    if piece ≠ [] ∧ t.cuts last c then piece :: cutFrom c [c] text else cutFrom c (piece ++ [c]) text

/-- The pattern that the flags name. -/
def pattern : Option Pattern :=
  match has t.flags CL100K, has t.flags O200K with
  | false, false => some .gpt2
  | true, false => some .cl100k
  | false, true => some .o200k
  | true, true => none

/-- The tokens of a piece in byte-level BPE: one of its own if the model ignores merges for it, else merged. -/
def byteWord (piece : List Char) : Option (List UInt32) := do
  match ← t.word (Utf8.bytes piece) with
  | some id => some [id]
  | none => t.mergeText piece

def byteSegment (text : List Char) : Option (List UInt32) := do
  let p ← t.pattern
  let ids ← (pieces C p text).mapM t.byteWord
  some ids.flatten

/-- A text with the space before it that the pre-tokenizer asks for. -/
def prepended (text : List Char) : List Char :=
  if has t.flags PREPEND ∧ text ≠ [] ∧ text.head? ≠ some ' ' ∧ text.head? ≠ some '▁' then
    (if has t.flags BYTE_LEVEL then ' ' else '▁') :: text
  else text

/-- The tokens of a text that holds no added token. -/
def segment (text : List Char) : Option (List UInt32) :=
  let text := t.prepended text
  if has t.flags BYTE_LEVEL then t.byteSegment C text
  else do
    let ids ← (t.cutFrom '▁' [] text).mapM t.mergeText
    some ids.flatten

/-! ## The whole -/

/-- The first byte of a token. -/
def start (id : UInt32) : ℕ := ((t.tokenBytes id).headD 0).toNat

/-- The longest non-special added token `rest` starts with, and its length in bytes. -/
def addedAt (rest : List UInt8) : Option (UInt32 × ℕ) :=
  match rest with
  | [] => none
  | first :: _ =>
    -- The list is in the order of the names, which need not be that of the bytes.
    let from_ := Partition.point (fun id => decide (t.start id < first.toNat)) t.added
    let same := (t.added.drop from_).takeWhile fun id => decide (t.start id = first.toNat)
    (same.find? fun id => (t.tokenBytes id).isPrefixOf rest).map fun id => (id, (t.tokenBytes id).length)

/-- The tokens of what has been read and holds no added token, and of the rest. The fuel bounds how many steps. -/
def encodeFrom : ℕ → List Char → List Char → Option (List UInt32)
  | 0, _, _ => none
  | _ + 1, read, [] => t.segment C read
  | fuel + 1, read, c :: text =>
    match t.addedAt (Utf8.bytes (c :: text)) with
    | some (id, len) => do
      let before ← t.segment C read
      let n ← charsIn (c :: text) len
      let after ← encodeFrom fuel [] ((c :: text).drop n)
      some (before ++ id :: after)
    | none => encodeFrom fuel (read ++ [c]) text

def normal (text : List Char) : List Char := if has t.flags NFC then Nfc.nfc C.tables text else text

/-- The tokens of a text. -/
def encode (text : List Char) : Option (List UInt32) :=
  let text := t.normal C text
  t.encodeFrom C (text.length + 1) [] text

end Tokenizer

/-! ## The letters of ASCII -/

namespace Pieces

theorem ranges_nil : ([] : List (ℕ × ℕ × ℕ)).Pairwise fun e f => e.2.1 < f.1 := .nil

theorem rows_nil : ([] : List (ℕ × ℕ × ℕ)).Pairwise fun e f => e.1 < f.1 := .nil

theorem pairs_nil : ([] : List (ℕ × ℕ × ℕ)).Pairwise fun e f => e.1 < f.1 ∨ e.1 = f.1 ∧ e.2.1 < f.2.1 := .nil

/-- Tables that know the letters of ASCII, and the long s. -/
def asciiTables : Nfc.Tables where
  letters := [(0x17F, 0x17F, 2)]
  classes := []
  decomposed := []
  composed := []
  letters_sorted := by decide
  classes_sorted := ranges_nil
  decomposed_sorted := rows_nil
  composed_sorted := pairs_nil
  acyclic := ⟨fun c => ⟨c, fun x h => by obtain ⟨e, he, -⟩ := h; exact absurd he List.not_mem_nil⟩⟩

theorem kind_ascii (c : Char) : Nfc.kind asciiTables c =
    if 65 ≤ c.toNat ∧ c.toNat ≤ 90 then 1
    else if 97 ≤ c.toNat ∧ c.toNat ≤ 122 then 2
    else if c.toNat = 0x17F then 2 else 0 := by
  have hupper : ('A' ≤ c ∧ c ≤ 'Z') ↔ 65 ≤ c.toNat ∧ c.toNat ≤ 90 := Iff.rfl
  have hlower : ('a' ≤ c ∧ c ≤ 'z') ↔ 97 ≤ c.toNat ∧ c.toNat ≤ 122 := Iff.rfl
  simp only [Nfc.kind, hupper, hlower]
  split_ifs with h₁ h₂ h₃ h₄ h₄
  · rfl
  · rfl
  · omega
  · rfl
  · rw [h₄]
    rfl
  · by_cases hle : c.toNat ≤ 0x17F
    · simp [Nfc.lookup, asciiTables, hle, show ¬0x17F ≤ c.toNat by omega]
    · simp [Nfc.lookup, asciiTables, hle]

theorem isDigit_iff (c : Char) : c.isDigit = true ↔ 48 ≤ c.toNat ∧ c.toNat ≤ 57 := by
  rw [Char.isDigit, Bool.and_eq_true, decide_eq_true_iff, decide_eq_true_iff]
  exact Iff.rfl

theorem blank_iff (c : Char) :
    (c == ' ' || 9 ≤ c.toNat && c.toNat ≤ 13) = true ↔ c.toNat = 32 ∨ 9 ≤ c.toNat ∧ c.toNat ≤ 13 := by
  rw [Bool.or_eq_true, Bool.and_eq_true, decide_eq_true_iff, decide_eq_true_iff, beq_iff_eq, ← Char.toNat_inj]
  exact Iff.rfl

def asciiCategories : Categories where
  tables := asciiTables
  is_numeric := Char.isDigit
  is_whitespace c := c == ' ' || 9 ≤ c.toNat && c.toNat ≤ 13
  kind_le c := by
    rw [kind_ascii]
    split_ifs <;> omega
  kind_numeric c h := by
    rw [isDigit_iff] at h
    rw [kind_ascii]
    split_ifs <;> omega
  kind_whitespace c h := by
    rw [blank_iff] at h
    rw [kind_ascii]
    split_ifs <;> omega
  numeric_whitespace c h := by
    rw [isDigit_iff] at h
    rw [Bool.eq_false_iff, ne_eq, blank_iff]
    omega
  ascii_numeric _ _ := rfl
  ascii_whitespace _ _ := rfl
  kind_long_s := rfl

end Pieces

end Chatlink.Token
