import Mathlib

/-!
# A tokenizer's tables

A vocabulary with its merges, as the tables that encoding and decoding look tokens up in. Every table is a
run of 32-bit words, and is stored as it is read.
-/
namespace Chatlink.Token

/-- No entry in a lookup table, and no token. -/
def NONE : UInt32 := 0xFFFFFFFF

/-- Characters with a direct entry in `chars`: the first two Unicode planes. -/
def DIRECT : ℕ := 0x20000

/-- A BPE vocabulary with its merges. -/
structure Tokenizer where
  flags : UInt32
  unk : UInt32
  /-- Where each token's text starts in `text`; one more entry than tokens. -/
  offsets : List UInt32
  text : List UInt8
  /-- Special tokens' IDs, sorted. -/
  special : List UInt32
  bytes : List UInt32
  chars : List UInt32
  rare : List UInt32
  joins : List UInt32
  added : List UInt32
  merges : List UInt32
  words : List UInt32
  frame : UInt32 × UInt32
  deriving DecidableEq, Repr

namespace Tokenizer

variable (t : Tokenizer)

/-- The number of tokens. -/
def len : ℕ := t.offsets.length - 1

/-- The text token `id` decodes to, as bytes. Offsets that go back or past the text, which `build` never makes, panic. -/
def tokenBytes (id : UInt32) : List UInt8 :=
  match t.offsets.drop id.toNat with
  | i :: j :: _ => (t.text.take j.toNat).drop i.toNat
  | _ => []

/-- Whether `id` is a special token; the binary search finds what a sorted list holds. -/
def isSpecial (id : UInt32) : Bool := t.special.contains id

end Tokenizer

end Chatlink.Token
