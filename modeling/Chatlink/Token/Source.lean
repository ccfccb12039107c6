import Chatlink.Token.Tokenizer

/-!
# What a `tokenizer.json` says

The parts of a Hugging Face `tokenizer.json` that a tokenizer is built from: its normalizer and pre-tokenizer as
flags, its added tokens, its merges, and the frame its post-processor puts around a text.
-/
namespace Chatlink.Token

/-- A document that is refused, and why. -/
inductive Error where
  | format (text : String)
  deriving DecidableEq, Repr

/-- A JSON value; what is read of a number is what it is as a 32-bit word. -/
inductive Json where
  | null
  | bool (b : Bool)
  | num (n : ℚ)
  | str (s : String)
  | arr (xs : List Json)
  | obj (fields : List (String × Json))

namespace Json

def asObj : Json → Option (List (String × Json))
  | obj fields => some fields
  | _ => none

/-- The value of `key` in an object. -/
def get (j : Json) (key : String) : Option Json := do
  let fields ← j.asObj
  fields.lookup key

def asStr : Json → Option String
  | str s => some s
  | _ => none

def asNum : Json → Option ℚ
  | num n => some n
  | _ => none

def asBool : Json → Option Bool
  | bool b => some b
  | _ => none

def asArr : Json → Option (List Json)
  | arr xs => some xs
  | _ => none

/-- The string at `key`. -/
def strAt (j : Json) (key : String) : Option String := j.get key >>= asStr

def boolAt (j : Json) (key : String) : Option Bool := j.get key >>= asBool

def arrAt (j : Json) (key : String) : Option (List Json) := j.get key >>= asArr

end Json

/-- A number as a 32-bit word: cut to a whole number, and to the range. -/
def asU32 (q : ℚ) : UInt32 := UInt32.ofNat (min ⌊q⌋.toNat (2 ^ 32 - 1))

def numOr (j : Option Json) : UInt32 := asU32 ((j >>= Json.asNum).getD (-1))

/-! ## Flags -/

def META : UInt32 := 1
def BYTES : UInt32 := 2
def SPLIT : UInt32 := 4
def PREPEND : UInt32 := 8
def BYTE_LEVEL : UInt32 := 16
def CL100K : UInt32 := 32
def NFC : UInt32 := 64
def O200K : UInt32 := 128

/-- Whether `flag` is set. -/
def has (flags flag : UInt32) : Bool := flags &&& flag != 0

/-- `flag` if the condition holds. -/
def flagIf (cond : Bool) (flag : UInt32) : UInt32 := if cond then flag else 0

def unsupported (what : String) : Error := .format s!"tokenizer: {what} is not supported"

/-- The regular expression that cuts a text into pieces. -/
inductive Pattern where
  | gpt2
  | cl100k
  | o200k
  deriving DecidableEq, Repr

/-- The patterns as `tokenizer.json` writes them. -/
def PATTERNS : List (String × Pattern) :=
  [("'s|'t|'re|'ve|'m|'ll|'d| ?\\p\x7bL\x7d+| ?\\p\x7bN\x7d+| ?[^\\s\\p\x7bL\x7d\\p\x7bN\x7d]+|\\s+(?!\\S)|\\s+", .gpt2),
   ("(?i:'s|'t|'re|'ve|'m|'ll|'d)|[^\\r\\n\\p\x7bL\x7d\\p\x7bN\x7d]?\\p\x7bL\x7d+|\\p\x7bN\x7d\x7b1,3\x7d| " ++
    "?[^\\s\\p\x7bL\x7d\\p\x7bN\x7d]+[\\r\\n]*|\\s*[\\r\\n]+|\\s+(?!\\S)|\\s+", .cl100k),
   ("[^\\r\\n\\p\x7bL\x7d\\p\x7bN\x7d]?[\\p\x7bLu\x7d\\p\x7bLt\x7d\\p\x7bLm\x7d\\p\x7bLo\x7d\\p\x7bM\x7d]*" ++
    "[\\p\x7bLl\x7d\\p\x7bLm\x7d\\p\x7bLo\x7d\\p\x7bM\x7d]+(?i:'s|'t|'re|'ve|'m|'ll|'d)?|" ++
    "[^\\r\\n\\p\x7bL\x7d\\p\x7bN\x7d]?[\\p\x7bLu\x7d\\p\x7bLt\x7d\\p\x7bLm\x7d\\p\x7bLo\x7d\\p\x7bM\x7d]+" ++
    "[\\p\x7bLl\x7d\\p\x7bLm\x7d\\p\x7bLo\x7d\\p\x7bM\x7d]*(?i:'s|'t|'re|'ve|'m|'ll|'d)?|\\p\x7bN\x7d\x7b1,3\x7d| " ++
    "?[^\\s\\p\x7bL\x7d\\p\x7bN\x7d]+[\\r\\n/]*|\\s*[\\r\\n]+|\\s+(?!\\S)|\\s+", .o200k)]

/-- Whether the normalizer turns spaces into `▁`, and whether it is NFC. -/
def normalizer (n : Option Json) : Except Error (Bool × Bool) :=
  match n with
  | none | some .null => .ok (false, false)
  | some n =>
    if n.strAt "type" = some "Replace" ∧ n.strAt "content" = some "▁" then .ok (true, false)
    else if n.strAt "type" = some "NFC" then .ok (false, true)
    else .error (unsupported "this normalizer")

/-- The flags of a byte-level part that uses the pattern of GPT-2, or none. -/
def byteLevelFlags (p : Json) (regex : Bool) : Option UInt32 :=
  let prepend := flagIf (p.boolAt "add_prefix_space" = some true) PREPEND
  if p.strAt "type" = some "ByteLevel" ∧ p.boolAt "use_regex" = some regex then some (BYTE_LEVEL ||| prepend) else none

/-- The flags of a byte-level pre-tokenizer: one with GPT-2's pattern, or a split by a known pattern then one with none. -/
def byteLevel (pre : Json) : Option UInt32 :=
  match byteLevelFlags pre true with
  | some f => some f
  | none =>
    match (pre.arrAt "pretokenizers").getD [] with
    | [split, last] => do
      let regex := do
        let p ← split.get "pattern"
        p.strAt "Regex"
      let how := (split.strAt "behavior", split.boolAt "invert")
      let kept := how = (some "Removed", some true) ∨ how = (some "Isolated", some false)
      let (_, pattern) ← PATTERNS.find? fun p => some p.1 = regex ∧ kept
      let bit := match pattern with
        | .gpt2 => 0
        | .cl100k => CL100K
        | .o200k => O200K
      let f ← byteLevelFlags last false
      pure (f ||| bit)
    | _ => none

/-- The flags of the pre-tokenizer. -/
def preTokenizer (pre : Option Json) (spaced : Bool) : Except Error UInt32 :=
  match pre with
  | none | some .null => .ok 0
  | some pre =>
    match byteLevel pre with
    | some flags => .ok flags
    | none =>
      if pre.strAt "type" = some "Split" ∧ spaced ∧ ((pre.get "pattern").bind fun p => p.strAt "String") = some " " then .ok 0
      else if pre.strAt "type" = some "Metaspace" ∧ pre.strAt "replacement" = some "▁" then
        let split := flagIf (pre.boolAt "split" ≠ some false) SPLIT
        let scheme := pre.strAt "prepend_scheme"
        .ok (META ||| split ||| flagIf (scheme = some "always" ∨ scheme = some "first") PREPEND)
      else .error (unsupported "this pre-tokenizer")

/-! ## Tokens -/

/-- The added tokens, for the vocabulary; the special ones' IDs and the others'. -/
def addedTokens (tokens : Option Json) : List (String × UInt32) × List UInt32 × List UInt32 :=
  let items := ((tokens >>= Json.asArr).getD []).map fun t =>
    ((t.strAt "content").getD "", numOr (t.get "id"), t.boolAt "special" == some true)
  (items.map fun i => (i.1, i.2.1), (items.filter fun i => i.2.2).map fun i => i.2.1,
    (items.filter fun i => !i.2.2).map fun i => i.2.1)

/-- A merge as `tokenizer.json` writes it: `["a", "b"]`, or `"a b"` in older files. -/
def pair : Json → Option (String × String)
  | .arr (a :: b :: _) => do
    let a ← a.asStr
    let b ← b.asStr
    pure (a, b)
  | .str s =>
    let left := s.toList.takeWhile (· ≠ ' ')
    match s.toList.drop left.length with
    | [] => none
    | _ :: right => some (.ofList left, .ofList right)
  | _ => none

/-- The special tokens a `TemplateProcessing` post-processor puts before and after a single text; `NONE` where it puts
none, or more than one. -/
def frame (post : Option Json) : UInt32 × UInt32 :=
  let template := do
    let p ← post
    (p :: (p.arrAt "processors").getD []).find? fun (q : Json) => q.strAt "type" = some "TemplateProcessing"
  match template with
  | none => (NONE, NONE)
  | some t =>
    let id (item : Json) : Option UInt32 := do
      let name ← (← item.get "SpecialToken").strAt "id"
      let ids ← (← (← t.get "special_tokens").get name).arrAt "ids"
      let first ← ids.head? >>= Json.asNum
      if ids.length = 1 then some (asU32 first) else none
    let single := (t.arrAt "single").getD []
    let side (items : List Json) : UInt32 :=
      match items with
      | [one] => (id one).getD NONE
      | _ => NONE
    let i := single.findIdx fun (item : Json) => (item.get "Sequence").isSome
    (side (single.take i), side (single.drop (i + 1)))

end Chatlink.Token
