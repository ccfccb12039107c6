import Chatlink.Serve.Sbe
import Chatlink.Serve.Shm

/-!
# Requests, as the command line writes them and the daemon reads them

A conversation is written in full generality; the command line's own chats have one
message of the user.
-/
namespace Chatlink.Serve

open Codec

inductive Role where
  | system | user | model
  deriving DecidableEq, Repr

inductive Kind where
  | choice | score | noul
  deriving DecidableEq, Repr

inductive Duration where
  | millis (ms : UInt64)
  | max
  deriving DecidableEq, Repr

structure Sampling where
  seed : UInt64
  topK : UInt32
  temperature : F32
  topP : F32
  minP : F32
  penalty : F32
  deriving DecidableEq, Repr

/-- A message of a Chat: its role, its text and its attachments (media, bytes). -/
structure Said where
  role : Role
  text : String
  attached : List (UInt8 × Blob)
  deriving DecidableEq, Repr

structure Chat where
  model : String
  messages : List Said
  sampling : Sampling
  maxTokens : ℕ
  think : Bool
  keep : Option Duration
  deriving DecidableEq, Repr

structure Embed where
  model : String
  texts : List String
  dims : ℕ
  out : Blob
  deriving DecidableEq, Repr

/-- A question: its kind, its instructions, its options' labels and descriptions. -/
structure Asked where
  kind : Kind
  instructions : String
  options : List (String × String)
  deriving DecidableEq, Repr

structure Decide where
  model : String
  state : String
  conversation : Bool
  questions : List Asked
  out : Blob
  deriving DecidableEq, Repr

inductive Ask where
  | chat (c : Chat)
  | embed (e : Embed)
  | decide (d : Decide)
  | load (model : String) (keep : Option Duration) (context : ℕ) (pin : Bool)
  | unload (model : String)
  | list
  | shutdown
  deriving DecidableEq, Repr

/-- A keep-alive in milliseconds: −1 the default, −2 for good, else as given. -/
def keepAlive (ms : Int64) : Option Duration :=
  if ms = -1 then none
  else if ms < 0 then some .max
  else some (.millis ms.toUInt64)

/-! ### The daemon's side -/

def keep (ms : UInt64) : Option Duration := keepAlive ms.toInt64

def USIZE_MAX : ℕ := 2 ^ 64 - 1

def readLoad (b : Block) : Reading Ask := do
  let model ← Reader.text
  let keepMs ← ofOption (b.u64 8)
  let context ← ofOption (b.u32 16)
  let pin ← ofOption (b.u8 20)
  pure (.load model (keep keepMs) context.toNat (pin ≠ 0))

def readSampling (b : Block) : Option Sampling := do
  let seed ← b.u64 8
  let topK ← b.u32 28
  let temperature ← b.f32 32
  let topP ← b.f32 36
  let minP ← b.f32 40
  let penalty ← b.f32 44
  pure { seed, topK, temperature, topP, minP, penalty }

def readAttached (len : ℕ) : Reading (UInt8 × Blob) := do
  let e ← Reader.entry len
  let media ← ofOption (e.u8 16)
  let blob ← ofOption (e.blob 0)
  pure (media, blob)

/-- One message of a Chat, whose entries take `len` bytes. -/
def readSaid (len : ℕ) : Reading Said := do
  let e ← Reader.entry len
  let code ← ofOption (e.u8 0)
  let role ← ofOption [Role.system, .user, .model][code.toNat]?
  let g ← Reader.group
  let attached ← times (readAttached g.1) g.2
  let text ← Reader.text
  pure { role, text, attached }

def readChat (b : Block) : Reading Chat := do
  let g ← Reader.group
  let messages ← times (readSaid g.1) g.2
  let tokens ← ofOption (b.u32 24)
  let model ← Reader.text
  let sampling ← ofOption (readSampling b)
  let think ← ofOption (b.u8 48)
  let keepMs ← ofOption (b.u64 16)
  pure { model, messages, sampling, think := think ≠ 0, keep := keep keepMs
         maxTokens := if tokens = 0 then USIZE_MAX else tokens.toNat }

def readText (len : ℕ) : Reading String := do
  let _ ← Reader.entry len
  Reader.text

def readEmbed (b : Block) : Reading Embed := do
  let g ← Reader.group
  let texts ← times (readText g.1) g.2
  let model ← Reader.text
  let dims ← ofOption (b.u32 24)
  let out ← ofOption (b.blob 8)
  pure { model, texts, dims := dims.toNat, out }

def readOption (len : ℕ) : Reading (String × String) := do
  let _ ← Reader.entry len
  let label ← Reader.text
  let about ← Reader.text
  pure (label, about)

/-- One question of a Decide, whose entries take `len` bytes. -/
def readAsked (len : ℕ) : Reading Asked := do
  let e ← Reader.entry len
  let code ← ofOption (e.u8 0)
  let kind ← ofOption [Kind.choice, .score, .noul][code.toNat]?
  let g ← Reader.group
  let options ← times (readOption g.1) g.2
  let instructions ← Reader.text
  pure { kind, instructions, options }

def readDecide (b : Block) : Reading Decide := do
  let g ← Reader.group
  let questions ← times (readAsked g.1) g.2
  let model ← Reader.text
  let state ← Reader.text
  let conversation ← ofOption (b.u8 24)
  let out ← ofOption (b.blob 8)
  pure { model, state, conversation := conversation ≠ 0, questions, out }

def readAsk (template : ℕ) (b : Block) : Reading Ask :=
  match template with
  | 1 => do
    let c ← readChat b
    pure (.chat c)
  | 2 => do
    let e ← readEmbed b
    pure (.embed e)
  | 3 => do
    let d ← readDecide b
    pure (.decide d)
  | 4 => readLoad b
  | 5 => do
    let model ← Reader.text
    pure (.unload model)
  | 6 => pure .list
  | 7 => pure .shutdown
  | _ => ofOption none

/-- Reads the request in the request area: its number, and what it asks unless it cannot
be read. -/
def read (bytes : List UInt8) : UInt64 × Option Ask :=
  match Reader.open_ ⟨bytes, 0⟩ with
  | none => (0, none)
  | some (m, r) => ((Block.u64 m.2 0).getD 0, (readAsk m.1 m.2 r).map Prod.fst)

/-! ### The command line's side -/

/-- A request of `template` numbered `id`, its block's other fields `rest`. -/
def request (template : UInt16) (id : UInt64) (rest : Fields) : Writer :=
  Writer.new template (Fields.u64 [] id ++ rest)

def boolByte (b : Bool) : UInt8 := if b then 1 else 0

def Role.code : Role → UInt8
  | .system => 0
  | .user => 1
  | .model => 2

def Kind.code : Kind → UInt8
  | .choice => 0
  | .score => 1
  | .noul => 2

def attach (w : Writer) (a : UInt8 × Blob) : Writer :=
  w.bytes (((Fields.u64 [] a.2.offset).u64 a.2.length).u8 a.1)

/-- A message of the conversation: its role, its attachments, its text. -/
def saying (w : Writer) (m : Said) : Writer :=
  (m.attached.foldl attach ((w.bytes [m.role.code]).group 17 m.attached.length)).text m.text

/-- A conversation with its settings, as a Chat's block holds them. -/
structure Talk where
  model : String
  messages : List Said
  sampling : Sampling
  maxTokens : UInt32
  think : Bool
  keep : Int64
  deriving DecidableEq, Repr

def Talk.fields (t : Talk) : Fields :=
  ((((((((Fields.u64 [] t.sampling.seed).u64 t.keep.toUInt64).u32 t.maxTokens).u32
    t.sampling.topK).u32 t.sampling.temperature.bits).u32 t.sampling.topP.bits).u32
    t.sampling.minP.bits).u32 t.sampling.penalty.bits).u8 (boolByte t.think)

def Talk.write (id : UInt64) (t : Talk) : Writer :=
  (t.messages.foldl saying ((request 1 id t.fields).group 1 t.messages.length)).text t.model

def choosing (w : Writer) (o : String × String) : Writer := (w.text o.1).text o.2

/-- A Decide's questions group. -/
def asking (w : Writer) (asked : List Asked) : Writer :=
  asked.foldl (fun w a =>
    (a.options.foldl choosing ((w.bytes [a.kind.code]).group 0 a.options.length)).text
      a.instructions) (w.group 1 asked.length)

/-- The conversation of `tachyon run`. -/
def runTalk (model prompt : String) (attached : List (UInt8 × Blob)) : Talk where
  model := model
  messages := [{ role := .user, text := prompt, attached }]
  sampling := { seed := 0, topK := 0, temperature := ⟨0⟩, topP := ⟨0x3F800000⟩, minP := ⟨0⟩
                penalty := ⟨0x3F800000⟩ }
  maxTokens := 0
  think := false
  keep := -1

namespace Commands

/-- `tachyon run`: one message of the user, answered greedily. -/
def run (id : UInt64) (model prompt : String) (attached : List (UInt8 × Blob)) : Writer :=
  let sampling := ((((((((Fields.u64 [] 0).u64 (UInt64.ofNat (2 ^ 64 - 1))).u32 0).u32 0).u32
    0).u32 0x3F800000).u32 0).u32 0x3F800000).u8 0
  let w := ((((request 1 id sampling).group 1 1).bytes [1]).group 17 attached.length)
  ((attached.foldl attach w).text prompt).text model

theorem run_eq_write (id : UInt64) (model prompt : String) (attached : List (UInt8 × Blob)) :
    run id model prompt attached = (runTalk model prompt attached).write id := rfl

/-- `room` is the size of the data area, `dims` the values kept of each embedding. -/
def embed (id room : UInt64) (model : String) (texts : List String) (dims : Option UInt64) :
    Writer :=
  let w := request 2 id (((Fields.u64 [] 0).u64 room).u32 (dims.getD 0).toUInt32)
  (texts.foldl Writer.text (w.group 0 texts.length)).text model

def decide (id room : UInt64) (model state : String) (conversation : Bool)
    (asked : List Asked) : Writer :=
  let w := request 3 id (((Fields.u64 [] 0).u64 room).u8 (boolByte conversation))
  ((asking w asked).text model).text state

def load (id : UInt64) (model : String) (keep : Int64) (context : UInt32) (pin : Bool) : Writer :=
  (request 4 id (((Fields.u64 [] keep.toUInt64).u32 context).u8 (boolByte pin))).text model

def unload (id : UInt64) (model : String) : Writer := (request 5 id []).text model

def ps (id : UInt64) : Writer := request 6 id []

def down (id : UInt64) : Writer := request 7 id []

end Commands

end Chatlink.Serve
