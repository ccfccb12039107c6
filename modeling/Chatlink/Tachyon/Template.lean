import Mathlib.Algebra.Order.Floor.Div
import Chatlink.Serve.Requests

/-!
# The chat template

A conversation as tokens: the turn markers by number, the messages as text, and for each
image and clip a run of slots that its soft tokens fill. Every token that is put out carries
what it stands for, a medium in a slot and nothing otherwise; the prompt is the tokens alone.

How the tokenizer cuts a text is a parameter, and so is the `f64` arithmetic by which an image
is fitted to its budget.
-/
namespace Chatlink.Tachyon

open Serve (Role F32)

inductive Error where
  | media (what : String)
  | unsupported (what : String)
  | format (what : String)
  | noModel (name : String)
  | tooLong (tokens context : ℕ)
  | outOfMemory (need free : ℕ)
  /-- A call of the driver failed. -/
  | cuda
  /-- A file could not be read. -/
  | io
  deriving DecidableEq, Repr

/-! ### Media -/

def PATCH : ℕ := 16

def POOL : ℕ := 3

def BUDGETS : List ℕ := [70, 140, 280, 560, 1120]

structure Image where
  width : ℕ
  height : ℕ
  rgb : List UInt8
  deriving DecidableEq, Repr

structure Audio where
  rate : ℕ
  samples : List F32
  deriving DecidableEq, Repr

inductive Medium where
  | image (i : Image)
  | clip (a : Audio)
  deriving DecidableEq, Repr

/-- `floor (factor · v / side)` for `v` pixels of an image at a budget. -/
abbrev Squares := Image → ℕ → ℕ → ℕ

namespace Image

variable (squares : Squares)

/-- The size an image gets for `budget` soft tokens, in whole squares. -/
def fittedSize (image : Image) (budget : ℕ) : Except Error (ℕ × ℕ) :=
  let side := POOL * PATCH
  let h := squares image budget image.height * side
  let w := squares image budget image.width * side
  let most := budget * side
  if budget ∉ BUDGETS then
    .error (.media (toString budget ++ " soft tokens per image; Gemma 4 takes " ++ toString BUDGETS))
  else if h = 0 ∧ w = 0 then
    .error (.media ("a " ++ toString image.width ++ "×" ++ toString image.height ++
      " image too thin to fit any patch"))
  else if h = 0 then .ok (min (image.width / image.height * side) most, side)
  else if w = 0 then .ok (side, min (image.height / image.width * side) most)
  else .ok (w, h)

/-- One soft token for each square of its fitted size. -/
def softTokens (image : Image) (budget : ℕ) : Except Error ℕ := do
  let size ← image.fittedSize squares budget
  .ok (size.1 / (PATCH * POOL) * (size.2 / (PATCH * POOL)))

end Image

namespace Audio

def SAMPLE_RATE : ℕ := 16000

def MAX_SAMPLES : ℕ := 30 * SAMPLE_RATE

/-- The feature frames of `len` samples that hold no padding. -/
def valid (len : ℕ) : ℕ := (min len MAX_SAMPLES - 160) ⌈/⌉ 160

/-- One for each four valid frames, rounding up twice. -/
def softTokens (len : ℕ) : ℕ := valid len ⌈/⌉ 2 ⌈/⌉ 2

/-- The soft tokens of a clip, once at 16 kHz. -/
def count (audio : Audio) : ℕ :=
  softTokens ((audio.samples.length * SAMPLE_RATE) ⌈/⌉ max audio.rate 1)

end Audio

/-! ### Tokens -/

/-- Every token has a text; the special ones stand by number only. `piece` is the text that the
last of some tokens completes when they are read one after the other, `rest` what is left. -/
structure Tokenizer where
  specials : List ℕ
  bytes : ℕ → String
  encode : String → List ℕ
  piece : List ℕ → String
  rest : List ℕ → String

namespace Tokenizer

variable (tok : Tokenizer)

/-- The special token written `text`. -/
def special (text : String) : Option ℕ := tok.specials.find? fun id => tok.bytes id = text

/-- No text is cut into special tokens. -/
def Plain : Prop := ∀ text, ∀ t ∈ tok.encode text, t ∉ tok.specials

end Tokenizer

/-- White space, as Unicode has it. -/
def isWhitespace (c : Char) : Bool :=
  c.val = 0x20 || 0x09 ≤ c.val && c.val ≤ 0x0D || c.val = 0x85 || c.val = 0xA0 || c.val = 0x1680 ||
    0x2000 ≤ c.val && c.val ≤ 0x200A || c.val = 0x2028 || c.val = 0x2029 || c.val = 0x202F ||
    c.val = 0x205F || c.val = 0x3000

def trim (s : String) : String :=
  String.ofList ((s.toList.dropWhile isWhitespace).reverse.dropWhile isWhitespace).reverse

structure Message where
  role : Role
  text : String
  images : List Image := []
  audio : List Audio := []
  deriving DecidableEq, Repr

/-- The opening, slot and closing mark of a kind of media. -/
structure Marks where
  opening : ℕ
  slot : ℕ
  closing : ℕ
  deriving DecidableEq, Repr

structure Chat where
  bos : ℕ
  turn : ℕ
  ending : ℕ
  think : ℕ
  image : Option Marks
  audio : Option Marks
  budget : ℕ
  /-- The marks of an empty thinking block that opens the model's turn. -/
  closed : Option (ℕ × ℕ)
  deriving DecidableEq, Repr

/-- A token, and the medium whose slot it is. -/
abbrev Emitted := ℕ × Option Medium

namespace Chat

def DEFAULT_BUDGET : ℕ := 280

def get (tok : Tokenizer) (s : String) : Except Error ℕ :=
  match tok.special s with
  | some id => .ok id
  | none => .error (.format ("tokenizer: no " ++ s ++ " token, not Gemma 4's"))

def marks (tok : Tokenizer) (names : String × String × String) : Option Marks := do
  let opening ← tok.special names.1
  let slot ← tok.special names.2.1
  let closing ← tok.special names.2.2
  some { opening, slot, closing }

/-- The chat format of a Gemma 4 tokenizer. -/
def gemma4 (tok : Tokenizer) : Except Error Chat := do
  let bos ← get tok "<bos>"
  let turn ← get tok "<|turn>"
  let ending ← get tok "<turn|>"
  let think ← get tok "<|think|>"
  .ok { bos, turn, ending, think
        image := marks tok ("<|image>", "<|image|>", "<image|>")
        audio := marks tok ("<|audio>", "<|audio|>", "<audio|>")
        budget := DEFAULT_BUDGET, closed := none }

/-- The format as the model's template opens its turn; `block` says whether its generation
prompt writes an empty thinking block. -/
def withTemplate (c : Chat) (tok : Tokenizer) (block : Bool) : Chat :=
  { c with closed := do
      let opening ← tok.special "<|channel>"
      let closing ← tok.special "<channel|>"
      if block then some (opening, closing) else none }

def withBudget (c : Chat) (budget : ℕ) : Chat := { c with budget }

/-- The format of a model directory; `block` is `none` when it has no template. -/
def open_ (tok : Tokenizer) (block : Option Bool) (budget : ℕ) : Except Error Chat := do
  let c ← gemma4 tok
  match block with
  | some b => .ok ((c.withTemplate tok b).withBudget budget)
  | none => .ok (c.withBudget budget)

variable (c : Chat) (tok : Tokenizer)

def imageToken : Option ℕ := c.image.map Marks.slot

def audioToken : Option ℕ := c.audio.map Marks.slot

def mark (t : ℕ) : List Emitted := [(t, none)]

def text (t : String) : List Emitted := (tok.encode t).map fun t => (t, none)

/-- `n` slots of a medium between its marks. -/
def slots (marks : Marks) (medium : Medium) (n : ℕ) : List Emitted :=
  mark marks.opening ++ List.replicate n (marks.slot, some medium) ++ mark marks.closing

def close (t : String) : List Emitted := text tok t ++ mark c.ending ++ text tok "\n"

variable (squares : Squares)

/-- The slots of a message's images, after the text so far, and the text that is left. -/
def showImages (t : String) (m : Message) : List Emitted × String :=
  match c.image, m.images with
  | some marks, i :: is =>
    (text tok t ++ (i :: is).flatMap fun image =>
      slots marks (.image image) ((image.softTokens squares c.budget).toOption.getD 0), "")
  | _, _ => ([], t)

/-- The same for its clips. -/
def playAudio (t : String) (m : Message) : List Emitted × String :=
  match c.audio, m.audio with
  | some marks, a :: as =>
    (text tok t ++ (a :: as).flatMap fun clip => slots marks (.clip clip) clip.count, "")
  | _, _ => ([], t)

/-- A user or system message's turn. -/
def turnOf (m : Message) : List Emitted :=
  let seen := c.showImages tok squares (if m.role = .system then "system\n" else "user\n") m
  let heard := c.playAudio tok (seen.2 ++ trim m.text) m
  mark c.turn ++ seen.1 ++ heard.1 ++ c.close tok heard.2

/-- The model's messages since the last other one, as one turn. -/
def modelTurn : Option String → List Emitted
  | some t => mark c.turn ++ c.close tok ("model\n" ++ t)
  | none => []

/-- The turns of messages; `model` is what the model said last. -/
def turns : Option String → List Message → List Emitted
  | model, [] => c.modelTurn tok model
  | model, m :: rest =>
    if m.role = .model then turns (some (model.getD "" ++ trim m.text)) rest
    else c.modelTurn tok model ++ c.turnOf tok squares m ++ turns none rest

/-- The first message, if it is a system message, and the others. -/
def system : List Message → Option String × List Message
  | [] => (none, [])
  | m :: rest => if m.role = .system then (some m.text, rest) else (none, m :: rest)

def systemTurn (said : Option String) (think : Bool) : List Emitted :=
  if said.isSome || think then
    mark c.turn ++
      if think then
        text tok "system\n" ++ mark c.think ++ c.close tok ("\n" ++ trim (said.getD ""))
      else c.close tok ("system\n" ++ trim (said.getD ""))
  else []

/-- The opening of the model's turn. -/
def opening (think : Bool) : List Emitted :=
  mark c.turn ++ text tok "model\n" ++
    match c.closed, think with
    | some (opening, closing), false => mark opening ++ text tok "thought\n" ++ mark closing
    | _, _ => []

def emit (messages : List Message) (think : Bool) : List Emitted :=
  mark c.bos ++ c.systemTurn tok (system messages).1 think ++
    c.turns tok squares none (system messages).2 ++ c.opening tok think

/-- The prompt of a conversation. -/
def encode (messages : List Message) (think : Bool) : List ℕ :=
  (c.emit tok squares messages think).map Prod.fst

end Chat

end Chatlink.Tachyon
