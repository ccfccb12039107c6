import Chatlink.Lib.Characters
import Chatlink.Token.Source

/-!
# A tokenizer from a `tokenizer.json`

The vocabulary's texts go one after the other into `text`, and each token into the tables of the bytes and characters
it may stand for. The merges go into an open addressing table, and so do the tokens themselves where the model
ignores merges.
-/
namespace Chatlink.Token

/-- Building may be refused; `none` where it does not return. -/
abbrev Building := ExceptT Error Option

def utf8 (s : String) : List UInt8 := Utf8.bytes s.toList

/-! ## Bytes written as characters -/

/-- Whether byte `b` stands for itself in a byte-level vocabulary: the printable ASCII and Latin-1 characters. -/
def printable (b : UInt8) : Bool := 0x21 ≤ b && b ≤ 0x7E || 0xA1 ≤ b && b ≤ 0xAC || 0xAE ≤ b

/-- The byte a character of a byte-level vocabulary stands for, if it stands for one: itself if printable, else the
`n`th of the others, written `U+0100 + n`. -/
def byteOf (c : Char) : Option UInt8 :=
  if c.toNat ≤ 255 then (some (UInt8.ofNat c.toNat)).filter printable
  else if c.toNat ≤ 323 then
    (((List.range 256).map UInt8.ofNat).filter fun b => !printable b)[c.toNat - 256]?
  else none

def hexDigit (c : Char) : Option ℕ :=
  if '0' ≤ c ∧ c ≤ '9' then some (c.toNat - '0'.toNat)
  else if 'a' ≤ c ∧ c ≤ 'f' then some (c.toNat - 'a'.toNat + 10)
  else if 'A' ≤ c ∧ c ≤ 'F' then some (c.toNat - 'A'.toNat + 10)
  else none

/-- The byte that `<0xHH>` names; a sign is read too. -/
def byteName (name : String) : Option UInt8 :=
  match name.toList with
  | ['<', '0', 'x', '+', b, '>'] => (hexDigit b).map UInt8.ofNat
  | ['<', '0', 'x', a, b, '>'] => do
    let a ← hexDigit a
    let b ← hexDigit b
    pure (UInt8.ofNat (16 * a + b))
  | _ => none

/-! ## Tables looked up by a hash -/

/-- Slot of `key` in a table of `mask + 1` entries. -/
def slot (key : UInt64) (mask : ℕ) : ℕ := ((key * 0x9E3779B97F4A7C15) >>> 40).toNat &&& mask

/-- The first slot that will do, from `start` on and around; where none does, the search goes on for ever. -/
def probe (start mask : ℕ) (stop : ℕ → Bool) : Option ℕ :=
  ((List.range (mask + 1)).map fun k => (start + k) &&& mask).find? stop

/-- The index of the entry of the merge table for `(a, b)`, or of the free one where it belongs. -/
def find (table : List UInt32) (a b : UInt32) : Option ℕ :=
  let mask := table.length / 4 - 1
  let i := probe (slot (a.toUInt64 <<< 32 ||| b.toUInt64) mask) mask fun i =>
    table[4 * i]? = some NONE ∨ table[4 * i]? = some a ∧ table[4 * i + 1]? = some b
  i.map (4 * ·)

/-- FNV-1a 64 of `bytes`. -/
def fnv (bytes : List UInt8) : UInt64 :=
  bytes.foldl (fun h b => (h ^^^ b.toUInt64) * 0x100000001B3) 0xCBF29CE484222325

namespace Tokenizer

/-! ## Tokens, one by one -/

/-- Records where the token's text ends. -/
def addText (t : Tokenizer) (text : List UInt8) : Tokenizer :=
  let text := t.text ++ text
  { t with text := text, offsets := t.offsets ++ [UInt32.ofNat text.length] }

/-- Records token `id`'s decoded text, which may be a byte. -/
def addPiece (t : Tokenizer) (id : UInt32) (name : String) : Tokenizer :=
  let special := t.isSpecial id
  match (byteName name).filter fun _ => has t.flags BYTES && !special with
  | some b => { t with bytes := t.bytes.set b.toNat id }.addText [b]
  | none => t.addText (utf8 (if has t.flags META && !special then name.map fun c => if c = '▁' then ' ' else c else name))

/-- Records the token of a single character. -/
def addChar (t : Tokenizer) (id : UInt32) (name : String) : Tokenizer :=
  match name.toList with
  | [c] => if c.toNat < DIRECT then { t with chars := t.chars.set c.toNat id } else { t with rare := t.rare ++ [c.val, id] }
  | _ => t

/-- Records token `id`: its decoded text, and its place in the byte and character tables. -/
def addToken (t : Tokenizer) (id : UInt32) (name : String) : Tokenizer :=
  let special := t.isSpecial id
  let t := t.addPiece id name
  if special then t else t.addChar id name

/-- Records token `id` of a byte-level vocabulary: a name of byte characters is those bytes; another is its own text. -/
def addByteToken (t : Tokenizer) (id : UInt32) (name : String) : Tokenizer :=
  match name.toList.mapM byteOf with
  | some [b] => { t with bytes := t.bytes.set b.toNat id }.addText [b]
  | some decoded => t.addText decoded
  | none => t.addText (utf8 name)

/-- Records token `id`, named `name` in the vocabulary. -/
def add (t : Tokenizer) (id : UInt32) (name : String) : Tokenizer :=
  if has t.flags BYTE_LEVEL && !t.isSpecial id then t.addByteToken id name else t.addToken id name

/-! ## The whole -/

/-- The added tokens that can match a text, by first byte then longest first. -/
def matched (names : List String) (added : List UInt32) : List UInt32 :=
  let key (id : UInt32) := utf8 (names.getD id.toNat "")
  let le (a b : UInt32) : Bool :=
    (key a).headD 0 < (key b).headD 0 || (key a).headD 0 == (key b).headD 0 &&
      ((key b).length < (key a).length || (key a).length == (key b).length && a ≤ b)
  (added.filter fun id => names[id.toNat]?.any fun n => !n.toList.isEmpty && !n.toList.contains '▁').mergeSort le

/-- Characters some token joins to a following `▁`. -/
def joinsOf (t : Tokenizer) (names : List String) : List UInt32 :=
  let plain := names.zipIdx.filter fun (_, id) => !t.isSpecial (UInt32.ofNat id)
  let pairs := plain.flatMap fun (name, _) => name.toList.zip (name.toList.drop 1)
  let joins := (pairs.filter fun (c, d) => d == '▁' && c != '▁').map fun (c, _) => c.val
  (joins.mergeSort (· ≤ ·)).destutter (· ≠ ·)

/-- Puts the merge of `a` and `b` into the table, where none of the two is there already. -/
def addMerge (ids : String → Option UInt32) (table : List UInt32) (m : (String × String) × ℕ) : Building (List UInt32) := do
  let ((a, b), rank) := m
  let get (s : String) : Building UInt32 :=
    match ids s with
    | some id => pure id
    | none => throw (.format s!"tokenizer: merge \"{a}\" + \"{b}\" names an unknown token")
  let left ← get a
  let right ← get b
  let made ← get (a ++ b)
  let i ← (find table left right : Option ℕ)
  if table[i]? = some NONE then
    pure ((((table.set i left).set (i + 1) right).set (i + 2) (UInt32.ofNat rank)).set (i + 3) made)
  else pure table

/-- The tables before any token is in them. -/
def empty (flags unk : UInt32) (special : List UInt32) (merges : ℕ) : Tokenizer where
  flags := flags
  unk := unk
  offsets := [0]
  text := []
  special := special
  bytes := List.replicate 256 NONE
  chars := List.replicate DIRECT NONE
  rare := []
  joins := []
  added := []
  merges := List.replicate (4 * max (2 * merges).nextPowerOfTwo 2) NONE
  words := []
  frame := (NONE, NONE)

/-- The names of the IDs from 0 to the last. -/
def namesOf (vocab : List (String × UInt32)) : List String :=
  let n := (vocab.map fun v => v.2.toNat + 1).foldl max 0
  vocab.foldl (fun names v => names.set v.2.toNat v.1) (List.replicate n "")

/-- The tokenizer of `vocab` and `merges`, whose added tokens are `special` and `added`. -/
def build (vocab : List (String × UInt32)) (merges : List (String × String)) (special added : List UInt32)
    (unk : Option String) (flags : UInt32) : Building Tokenizer := do
  let names := namesOf vocab
  let ids (s : String) := vocab.reverse.lookup s
  let t := empty flags ((unk >>= ids).getD NONE) (special.mergeSort (· ≤ ·)) merges.length
  let t := names.zipIdx.foldl (fun t (name, id) => t.add (UInt32.ofNat id) name) t
  let t := { t with joins := t.joinsOf names, added := matched names added }
  let table ← merges.zipIdx.foldlM (addMerge ids) t.merges
  pure { t with merges := table }

/-- Fills `words` with every token but those of `skip`, the added ones. -/
def indexWords (t : Tokenizer) (skip : List UInt32) : Option Tokenizer := do
  let table := List.replicate (max (2 * t.len).nextPowerOfTwo 2) NONE
  let mask := table.length - 1
  let ids := ((List.range (UInt32.ofNat t.len).toNat).map UInt32.ofNat).filter fun id => !skip.contains id
  let table ← ids.foldlM (fun table id => do
    let i ← probe (slot (fnv (t.tokenBytes id)) mask) mask fun i => table[i]? = some NONE
    pure (table.set i id)) table
  pure { t with words := table }

/-- The names and IDs of a document's vocabulary, then of its added tokens. -/
def vocabulary (doc model : Json) : List (String × UInt32) :=
  ((model.get "vocab" >>= Json.asObj).getD []).map (fun (k, v) => (k, numOr (some v))) ++
    (addedTokens (doc.get "added_tokens")).1

/-- A byte-pair tokenizer as a document describes it. -/
def fromJson (doc : Json) : Building Tokenizer := do
  let some model := (doc.get "model").filter fun m => m.strAt "type" = some "BPE"
    | throw (unsupported "a model other than BPE")
  let (spaced, nfc) ← normalizer (doc.get "normalizer")
  let pre ← preTokenizer (doc.get "pre_tokenizer") spaced
  let fallback := model.boolAt "byte_fallback" = some true
  let (special, plain) := (addedTokens (doc.get "added_tokens")).2
  let merges := ((model.arrAt "merges").getD []).filterMap pair
  let flags := pre ||| flagIf nfc NFC ||| flagIf spaced META ||| flagIf fallback BYTES
  let t ← build (vocabulary doc model) merges special plain (model.strAt "unk_token") flags
  let t := { t with frame := Token.frame (doc.get "post_processor") }
  if model.boolAt "ignore_merges" = some true then (t.indexWords (special ++ plain) : Option Tokenizer) else pure t

end Tokenizer

end Chatlink.Token
