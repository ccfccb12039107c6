import Mathlib
import Chatlink.Tachyon.Decoder
import Chatlink.Tachyon.Media

/-!
# The engine

Language models and encoders on one GPU. A model in VRAM may be parked in pinned host memory
or sent to disk, to make room or when its keep-alive runs out; its towers come with the first
image or clip and leave with it. A call may fail part-way and leaves what it has done.

What the files hold, how long calls of the driver succeed and what time it is are a `World`.
The answer being generated is kept with the engine: it borrows it until it is dropped.
-/
namespace Chatlink.Tachyon

open Serve (F32)

structure Load where
  settings : Settings := {}
  /-- How long it stays after its last use; `none` keeps it. -/
  keepAlive : Option ℕ := some 300
  pin : Bool := false
  budget : ℕ := Chat.DEFAULT_BUDGET

/-- A model in the host tier: the bytes of its weights and of its host table. -/
structure Parked where
  weights : ℕ
  table : ℕ
  hidden : ℕ
  deriving DecidableEq, Repr

def Parked.bytes (p : Parked) : ℕ := p.weights + p.table

namespace Decoder

def parkedBytes (d : Decoder) : ℕ := d.weights + d.table

def shadowBytes (d : Decoder) : ℕ := d.shadow.getD 0

def dropShadow (d : Decoder) : Decoder := { d with shadow := none }

/-- Moves a model to the host tier. -/
def park : Gpu Parked := do
  stop
  let d ← get
  match d.shadow with
  | some kept => return { weights := kept, table := d.table, hidden := d.hidden }
  | none =>
    call
    return { weights := d.weights, table := d.table, hidden := d.hidden }

end Decoder

/-- Back in VRAM, with `alive` calls of the driver to come. -/
def Parked.resume (p : Parked) (settings : Settings) (alive : ℕ) : Decoder :=
  { weights := p.weights, table := p.table, hidden := p.hidden, shadow := some p.weights
    chunk := settings.chunk, alive }

inductive Place where
  | vram (d : Decoder)
  | host (p : Parked)
  | disk

structure Model where
  name : String
  dir : String
  load : Load
  tok : Tokenizer
  chat : Chat
  ends : List ℕ
  need : ℕ
  used : ℕ
  until_ : Option ℕ
  place : Place
  vision : Option Vision
  audio : Option Tower

namespace Model

def resident (m : Model) : Bool :=
  match m.place with
  | .vram _ => true
  | _ => false

/-- VRAM of its towers. -/
def towers (m : Model) : ℕ := (m.vision.map Vision.bytes).getD 0 + (m.audio.map Tower.bytes).getD 0

/-- The width of the soft tokens, by the towers that are there. -/
def width (m : Model) : ℕ := ((m.vision.map Vision.width).or (m.audio.map Tower.width)).getD 0

/-- Pinned memory it holds. -/
def held (m : Model) : ℕ :=
  match m.place with
  | .host p => p.bytes
  | .vram d => d.shadowBytes
  | .disk => 0

/-- Whether it holds pinned memory that can be freed. -/
def holds (m : Model) : Bool :=
  match m.place with
  | .host _ => true
  | .vram d => 0 < d.shadowBytes
  | .disk => false

/-- Frees the pinned memory it holds. -/
def letGo (m : Model) : Model :=
  match m.place with
  | .vram d => { m with place := .vram d.dropShadow }
  | _ => { m with place := .disk }

/-- Out of VRAM, its towers gone. -/
def out (m : Model) : Model := { m with vision := none, audio := none, place := .disk }

def onDisk (m : Model) : Bool :=
  match m.place with
  | .disk => true
  | _ => false

/-- Its keep-alive has run out. -/
def due (m : Model) (now : ℕ) : Bool := !m.onDisk && !m.load.pin && m.until_.any (· ≤ now)

def touch (m : Model) (now : ℕ) (keep : Option ℕ) : Model :=
  { m with used := now, until_ := keep.map (now + ·) }

end Model

/-- An encoder's directory: its shape, whether it has Laya's head, and the bytes of its weights. -/
structure EncoderDir where
  hidden : ℕ
  inter : ℕ
  heads : ℕ
  laya : Bool
  weights : ℕ
  deriving DecidableEq, Repr

namespace EncoderDir

variable (d : EncoderDir)

def TOKENS : ℕ := 4096

def headDim : ℕ := d.hidden / d.heads

def describe : Except Error Unit :=
  if ¬(d.headDim = 32 ∨ d.headDim = 64) ∨ d.laya ∧ d.hidden % 64 ≠ 0 then
    .error (.unsupported ("an encoder with heads of " ++ toString d.headDim ++ " dimensions"))
  else .ok ()

/-- The tokens a batch holds, in whole tiles. -/
def capacity : Except Error ℕ :=
  let cap := TOKENS ⌈/⌉ 64 * 64
  if cap = 0 ∨ 65535 < cap then
    .error (.unsupported (toString TOKENS ++ " tokens at once: from 1 to 65535"))
  else .ok cap

/-- Bytes of the activation buffers. -/
def scratchSizes (cap : ℕ) : List ℕ :=
  let wide := max (max (3 * d.hidden) (2 * d.inter)) 64
  let half := max (max d.hidden d.inter) (if d.laya then 4 * d.hidden else 0)
  [4 * cap * d.hidden, 4 * cap * wide, 2 * (cap + 64) * half, 2 * (cap + 64) * max half (3 * d.hidden)]

/-- Values of RoPE's two tables: a sine and a cosine for each position and half dimension. -/
def ropeTables (cap : ℕ) : ℕ := 2 * (cap * (d.headDim / 2 * 2))

def footprint : Except Error ℕ := do
  d.describe
  let cap ← capacity
  .ok (d.weights + 2 * cap * d.headDim * 4 + (d.scratchSizes cap).sum)

/-- The bytes an encoder holds once it is open. -/
def openBytes : Except Error ℕ := do
  d.describe
  let cap ← capacity
  .ok (d.weights + 4 * d.ropeTables cap + (d.scratchSizes cap).sum)

end EncoderDir

/-- A loaded encoder. -/
structure Held where
  name : String
  bytes : ℕ
  keep : Option ℕ
  pin : Bool
  until_ : Option ℕ

/-- A model directory. `encoder` is what its configuration says, `need` the VRAM its decoder is
counted with, `decoder` the bytes of weights and host table and the width it opens with, and a
tower is what opening it comes to. -/
structure Files where
  encoder : Except Error (Option EncoderDir)
  tokenizer : Except Error Tokenizer
  template : Option Bool
  need : Settings → Except Error ℕ
  decoder : Except Error (ℕ × ℕ × ℕ)
  vision : Option (Except Error Vision)
  audio : Option (Except Error Tower)

structure World where
  now : ℕ
  files : String → Files
  squares : Squares
  sample : List (ℕ × ℕ) → ℕ
  /-- Calls of the driver that go through, for a decoder that comes into VRAM. -/
  alive : ℕ
  /-- Whether an encoder opens, a parked model resumes and the pool is trimmed. -/
  opens : Bool
  resumes : Bool
  trims : Bool
  /-- What a run of an encoder comes to. -/
  runs : Except Error Unit

/-- An answer being generated. `max` is what the request allows. -/
structure TokenStream where
  model : ℕ
  keep : Option ℕ
  max : ℕ
  text : String := ""
  /-- Tokens that were shown. -/
  shown : List ℕ := []
  next : Option ℕ
  left : ℕ
  tokens : ℕ := 0

structure Engine where
  models : List Model := []
  encoders : List Held := []
  vram : ℕ
  host : ℕ
  prompt : List ℕ := []
  stream : Option TokenStream := none

abbrev Eng := ExceptT Error (StateM Engine)

structure Request where
  messages : List Message
  think : Bool
  maxTokens : ℕ
  keepAlive : Option (Option ℕ)

namespace Engine

/-- VRAM the engine counts. -/
def used (e : Engine) : ℕ :=
  (e.encoders.map Held.bytes).sum + (e.models.map Model.towers).sum +
    ((e.models.filter Model.resident).map Model.need).sum

/-- Pinned host memory the engine counts. -/
def hosted (e : Engine) : ℕ := (e.models.map Model.held).sum

def modifyModel (i : ℕ) (f : Model → Model) (e : Engine) : Engine :=
  { e with models := e.models.modify i f }

def model (i : ℕ) : Eng Model := do
  match (← get).models[i]? with
  | some m => return m
  | none => throw .io

/-- Runs `x` on the decoder of model `i`, which is in VRAM. -/
def onDecoder {α : Type} (i : ℕ) (x : Gpu α) : Eng α := do
  match (← model i).place with
  | .vram d =>
    modify (modifyModel i fun m => { m with place := .vram (Fallible.after x d).2 })
    MonadExcept.ofExcept (Fallible.after x d).1
  | _ => throw .io

/-- The index of the least recently used model that `p` allows. -/
def oldest (e : Engine) (p : Model × ℕ → Bool) : Option ℕ :=
  (((e.models.zipIdx).filter p).argmin fun m => m.1.used).map Prod.snd

/-- Frees pinned memory, the least recently used first, until `bytes` more fit. -/
def freeHost (bytes : ℕ) : ℕ → Engine → Engine
  | 0, e => e
  | fuel + 1, e =>
    if e.host < e.hosted + bytes then
      match e.oldest fun m => m.1.holds with
      | some j => freeHost bytes fuel (e.modifyModel j Model.letGo)
      | none => e
    else e

/-- Moves model `i` out of VRAM. -/
def evict (i : ℕ) : Eng Unit := do
  let m ← model i
  modify (modifyModel i Model.out)
  match m.place with
  | .vram d =>
    if d.parkedBytes ≤ (← get).host then
      modify fun e => freeHost d.parkedBytes e.models.length e
      let p ← MonadExcept.ofExcept (Fallible.after Decoder.park d).1
      modify (modifyModel i fun m => { m with place := .host p })
  | _ => return

/-- Whether a model may leave VRAM to make room. -/
def mayGo (keep : Option ℕ) (m : Model × ℕ) : Bool :=
  some m.2 ≠ keep && !m.1.load.pin && m.1.resident

/-- Makes room for `need` bytes of VRAM, never moving out `keep`. -/
def room (need : ℕ) (keep : Option ℕ) : ℕ → Eng Unit
  | 0 => do
    throw (.outOfMemory need ((← get).vram - (← get).used))
  | fuel + 1 => do
    let e ← get
    if e.vram < e.used + need then
      match e.oldest (mayGo keep) with
      | some j =>
        evict j
        room need keep fuel
      | none => throw (.outOfMemory need (e.vram - e.used))

variable (w : World)

/-- Brings model `i` into VRAM from wherever it is. -/
def bring (i : ℕ) : Eng Unit := do
  let m ← model i
  match m.place with
  | .vram _ => return
  | .host p =>
    modify (modifyModel i fun m => { m with place := .disk })
    if w.resumes then
      modify (modifyModel i fun m => { m with place := .vram (p.resume m.load.settings w.alive) })
    else throw .cuda
  | .disk =>
    let sizes ← MonadExcept.ofExcept (w.files m.dir).decoder
    modify (modifyModel i fun m => { m with
      place := .vram { weights := sizes.1, table := sizes.2.1, hidden := sizes.2.2
                       chunk := m.load.settings.chunk, alive := w.alive } })

def resident (i : ℕ) : Eng Unit := do
  let m ← model i
  if !m.resident then room m.need (some i) ((← get).models.length + 1)
  bring w i

def trim : Eng Unit := if w.trims then pure () else throw .cuda

/-- Sends model `i` to disk if its keep-alive has run out; whether it did. -/
def expireModel (i : ℕ) : Eng Bool := do
  let m ← model i
  if m.due w.now then
    if m.resident then onDecoder i Decoder.stop
    modify (modifyModel i Model.out)
    return true
  else return false

def expireModels : List ℕ → Eng Bool
  | [] => pure false
  | i :: is => do
    let a ← expireModel w i
    let b ← expireModels is
    return a || b

def expire : Eng Unit := do
  let freed ← expireModels w (List.range (← get).models.length)
  let before := (← get).encoders.length
  modify fun e => { e with
    encoders := e.encoders.filter fun h => h.pin || h.until_.all (w.now < ·) }
  if freed || (← get).encoders.length < before then trim w

def unload (name : String) : Eng Unit :=
  modify fun e => { e with
    models := e.models.filter fun m => m.name ≠ name
    encoders := e.encoders.filter fun h => h.name ≠ name }

def loadEncoder (name : String) (enc : EncoderDir) (l : Load) : Eng Unit := do
  room (← MonadExcept.ofExcept enc.footprint) none ((← get).models.length + 1)
  let bytes ← MonadExcept.ofExcept enc.openBytes
  if w.opens then
    modify fun e => { e with
      encoders := e.encoders ++ [{ name, bytes, keep := l.keepAlive, pin := l.pin
                                   until_ := l.keepAlive.map (w.now + ·) }] }
  else throw .cuda

/-- A model that is not in memory yet. -/
def newModel (name dir : String) (l : Load) : Except Error Model := do
  let tok ← (w.files dir).tokenizer
  let chat ← Chat.open_ tok (w.files dir).template l.budget
  let need ← (w.files dir).need l.settings
  .ok { name, dir, load := l, tok, chat, need
        ends := [chat.ending, (tok.special "<eos>").getD chat.ending]
        used := w.now, until_ := l.keepAlive.map (w.now + ·)
        place := .disk, vision := none, audio := none }

def load (name dir : String) (l : Load) : Eng Unit := do
  unload name
  expire w
  match ← MonadExcept.ofExcept (w.files dir).encoder with
  | some enc => loadEncoder w name enc l
  | none =>
    let m ← MonadExcept.ofExcept (newModel w name dir l)
    modify fun e => { e with models := e.models ++ [m] }
    let last := (← get).models.length - 1
    tryCatch (resident w last) fun err => do
      modify fun e => { e with models := e.models.dropLast }
      throw err

/-- `decide` and `embed`: encoder `name` runs, its keep-alive started again. -/
def runEncoder (name : String) : Eng Unit := do
  expire w
  match (← get).encoders.findIdx? fun h => h.name = name with
  | some k =>
    modify fun e => { e with encoders := e.encoders.modify k fun h =>
      { h with until_ := h.keep.map (w.now + ·) } }
    MonadExcept.ofExcept w.runs
  | none => throw (.noModel name)

/-- Model `i`'s vision tower, brought into VRAM if it is not there. -/
def vision (i : ℕ) : Eng Vision := do
  let m ← model i
  match m.vision with
  | some v => return v
  | none =>
    match (w.files m.dir).vision, m.chat.imageToken with
    | some found, some _ =>
      let v ← MonadExcept.ofExcept found
      room v.bytes (some i) ((← get).models.length + 1)
      modify (modifyModel i fun m => { m with vision := some v })
      return v
    | _, _ => throw (.unsupported ("no vision tower in " ++ m.dir ++ ": images"))

/-- Model `i`'s audio tower, brought into VRAM if it is not there. -/
def hearing (i : ℕ) : Eng Tower := do
  let m ← model i
  match m.audio with
  | some t => return t
  | none =>
    match (w.files m.dir).audio, m.chat.audioToken with
    | some found, some _ =>
      let t ← MonadExcept.ofExcept found
      room t.bytes (some i) ((← get).models.length + 1)
      modify (modifyModel i fun m => { m with audio := some t })
      return t
    | _, _ => throw (.unsupported ("no audio tower in " ++ m.dir ++ ": audio"))

/-- The soft tokens of media, by model `i`'s towers. -/
def media (i : ℕ) : List Medium → Eng (List (List F32))
  | [] => pure []
  | .image image :: rest => do
    let v ← vision w i
    let s ← MonadExcept.ofExcept (v.softTokens w.squares image (← model i).load.budget)
    return s :: (← media i rest)
  | .clip clip :: rest => do
    let t ← hearing w i
    let s ← MonadExcept.ofExcept (t.softTokens clip)
    return s :: (← media i rest)

/-- The conversation as the prompt, and where soft tokens go in it. -/
def encode (i : ℕ) (req : Request) (soft : List (List F32)) : Eng (List (ℕ × List F32)) := do
  let m ← model i
  let prompt := m.chat.encode m.tok w.squares req.messages req.think
  modify fun e => { e with prompt }
  if m.load.settings.context ≤ prompt.length then
    throw (.tooLong prompt.length m.load.settings.context)
  MonadExcept.ofExcept (slots prompt (m.chat.imageToken, m.chat.audioToken) soft m.width)

/-- Feeds a conversation to model `name` and starts its answer. -/
def chat (name : String) (req : Request) : Eng Unit := do
  expire w
  match (← get).models.findIdx? fun m => m.name = name with
  | none => throw (.noModel name)
  | some i =>
    resident w i
    let soft ← media w i (shown req.messages)
    let places ← encode w i req soft
    let prompt := (← get).prompt
    let first ← onDecoder i (Decoder.feed w.sample prompt places)
    let m ← model i
    modify fun e => { e with
      stream := some { model := i, keep := req.keepAlive.getD m.load.keepAlive, max := req.maxTokens
                       next := some first
                       left := min req.maxTokens (m.load.settings.context - prompt.length) } }

def setStream (s : TokenStream) (e : Engine) : Engine := { e with stream := some s }

/-- The next token of the answer: the one that is known already, or the decoder's next. -/
def nextToken (s : TokenStream) : Eng ℕ :=
  match s.next with
  | some t => do
    modify (setStream { s with next := none })
    return t
  | none => onDecoder s.model (Decoder.nextToken w.sample)

/-- Reads tokens until they make a text, the answer ends, or none may come. -/
def readTokens : ℕ → Eng Unit
  | 0 => pure ()
  | fuel + 1 => do
    match (← get).stream with
    | none => return
    | some s =>
      if s.text = "" ∧ 0 < s.left then
        let m ← model s.model
        let token ← nextToken w s
        if token ∈ m.ends then
          modify (setStream { s with next := none, left := 0 })
        else
          modify (setStream { s with
            next := none, left := s.left - 1, tokens := s.tokens + 1, shown := s.shown ++ [token]
            text := m.tok.piece (s.shown ++ [token]) })
          readTokens fuel

/-- The answer's next piece of text. -/
def nextText : Eng (Option String) := do
  match (← get).stream with
  | none => return none
  | some s =>
    modify (setStream { s with text := "" })
    readTokens w s.left
    match (← get).stream with
    | none => return none
    | some s =>
      let m ← model s.model
      let text := if s.left = 0 then s.text ++ m.tok.rest s.shown else s.text
      modify (setStream { s with text, shown := if s.left = 0 then [] else s.shown })
      return if text = "" then none else some text

/-- Ends or cancels the answer. -/
def dropStream : Eng Unit := do
  match (← get).stream with
  | none => return
  | some s =>
    tryCatch (onDecoder s.model Decoder.stop) fun _ => pure ()
    modify (modifyModel s.model fun m => m.touch w.now s.keep)
    modify fun e => { e with stream := none }
    tryCatch (expire w) fun _ => pure ()

end Engine

/-! ### Operations -/

inductive Op where
  | load (name dir : String) (l : Load)
  | unload (name : String)
  | expire
  /-- `decide` or `embed`. -/
  | encode (name : String)
  | chat (name : String) (req : Request)
  | nextText
  | drop

namespace Op

def run (w : World) : Op → Eng Unit
  | load name dir l => Engine.load w name dir l
  | unload name => Engine.unload name
  | expire => Engine.expire w
  | encode name => Engine.runEncoder w name
  | chat name req => Engine.chat w name req
  | nextText => do
    let _ ← Engine.nextText w
  | drop => Engine.dropStream w

/-- Operations on the answer. -/
def onStream : Op → Bool
  | nextText | drop => true
  | _ => false

end Op

/-- While an answer is being generated, it has the engine to itself. -/
def Engine.step (e : Engine) (a : World × Op) : Option Engine :=
  if a.2.onStream = e.stream.isSome then some (Fallible.after (a.2.run a.1) e).2 else none

end Chatlink.Tachyon
