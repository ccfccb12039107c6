import Chatlink.Lib.Lists
import Chatlink.Serve.Requests

/-!
# Answers

What the daemon sends back for a request: any number of Text messages of a Chat, then one
last message, which is an Error when something failed. What the engine, the file system and
the decoders say meanwhile is a `World`.
-/
namespace Chatlink.Serve

/-- Why a request failed. -/
inductive Code where
  | badRequest | noModel | engine | cancelled | tooLarge
  deriving DecidableEq, Repr

def Code.number : Code → UInt16
  | .badRequest => 1
  | .noModel => 2
  | .engine => 3
  | .cancelled => 4
  | .tooLarge => 5

/-- A request's failure: its code and message. -/
structure Failed where
  code : Code
  text : String
  deriving DecidableEq, Repr

inductive Tier where
  | vram | host | disk
  deriving DecidableEq, Repr

def Tier.code : Tier → UInt8
  | .vram => 0
  | .host => 1
  | .disk => 2

/-- A loaded model, as the engine lists it; `left` is its keep-alive in milliseconds. -/
structure Listed where
  name : String
  vram : UInt64
  left : UInt64
  tier : Tier
  deriving DecidableEq, Repr

/-- A message to the client, with the number of the request it belongs to. -/
inductive Answer where
  | text (id : UInt64) (t : String)
  | done (id prefill decode : UInt64) (prompt tokens : UInt32)
  | error (id : UInt64) (f : Failed)
  | embedded (id : UInt64) (count dims : UInt32)
  | decided (id : UInt64) (counts : List UInt32)
  | models (id : UInt64) (ms : List Listed)
  deriving DecidableEq, Repr

namespace Answer

def id : Answer → UInt64
  | text i _ | done i _ _ _ _ | error i _ | embedded i _ _ | decided i _ | models i _ => i

/-- Whether it ends the answer to its request. -/
def isLast : Answer → Bool
  | text _ _ => false
  | _ => true

def listing (w : Writer) (m : Listed) : Writer :=
  (w.bytes (((Fields.u64 [] m.vram).u64 m.left).u8 m.tier.code)).text m.name

def bytes : Answer → Writer
  | text i t => (Writer.new 101 (Fields.u64 [] i)).text t
  | done i prefill decode prompt tokens =>
    Writer.new 102 ((((Fields.u64 [] i).u64 prefill).u64 decode).u32 prompt |>.u32 tokens)
  | error i f => (Writer.new 103 ((Fields.u64 [] i).u16 f.code.number)).text f.text
  | embedded i count dims => Writer.new 104 (((Fields.u64 [] i).u32 count).u32 dims)
  | decided i counts =>
    counts.foldl (fun w n => w.bytes (Fields.u32 [] n))
      ((Writer.new 105 (Fields.u64 [] i)).group 4 counts.length)
  | models i ms =>
    ms.foldl listing ((Writer.new 106 (Fields.u64 [] i)).group 17 ms.length)

end Answer

/-- What the engine, the file system and the decoders answer while a request runs: `present`
says where `weights.wpk` is found, `loaded` what the engine knows, `loadError` and the other
errors are texts of the engine. -/
structure World where
  present : String → Bool
  loaded : String → Bool
  loadError : String → Option String
  english : String → Bool
  /-- Rows of embeddings and their width. -/
  embed : Except String (ℕ × ℕ)
  /-- How many probabilities a question gets. -/
  decide : Except String (Asked → ℕ)
  /-- Whether an attachment of a kind (0 an image, 1 a WAV file) decodes. -/
  decodes : UInt8 → Blob → Bool
  chat : Except String Unit
  models : List Listed
  /-- Bytes of the data area. -/
  data : ℕ
  deriving Inhabited

namespace World

variable (w : World)

/-- The directory of model `name`: pulled, or a directory holding a converted model. -/
def dir (name : String) : Except Failed Unit :=
  if w.present name then .ok () else .error { code := .noModel, text := "no model " ++ name }

def load (name : String) : Except Failed Unit := do
  w.dir name
  match w.loadError name with
  | none => .ok ()
  | some e => .error { code := .engine, text := name ++ ": " ++ e }

/-- Loads model `name` unless it is loaded. -/
def ready (name : String) : Except Failed Unit :=
  if w.loaded name then .ok () else w.load name

def ofEngine {α : Type} : Except String α → Except Failed α
  | .ok a => .ok a
  | .error e => .error { code := .engine, text := e }

/-- Whether `n` bytes can be written to the blob: it is in the data area and has room. -/
def fits (out : Blob) (n : ℕ) : Bool :=
  out.offset.toNat + out.length.toNat ≤ w.data ∧ n ≤ out.length.toNat

def runEmbed (id : UInt64) (e : Embed) : Except Failed Answer := do
  w.ready e.model
  let rows ← ofEngine w.embed
  let n := 4 * (rows.1 * rows.2)
  if w.fits e.out n then
    .ok (.embedded id (UInt32.ofNat rows.1) (UInt32.ofNat (if rows.1 = 0 then 0 else rows.2)))
  else
    .error { code := .tooLarge, text := toString n ++ " bytes of embeddings do not fit the blob" }

/-- `laya` picks the checkpoint by the state's language. -/
def checkpoint (d : Decide) : String :=
  if d.model = "laya" then
    if w.english d.state && w.present "laya-english" then "laya-english" else "laya-multilingual"
  else d.model

def runDecide (id : UInt64) (d : Decide) : Except Failed Answer := do
  w.ready (w.checkpoint d)
  let count ← ofEngine w.decide
  let probs := d.questions.map count
  let n := 4 * probs.sum
  if w.fits d.out n then .ok (.decided id (probs.map UInt32.ofNat))
  else
    .error { code := .tooLarge, text := toString n ++ " bytes of probabilities do not fit the blob" }

/-- Whether the attachments of a kind all decode. -/
def decodesAll (kind : UInt8) (what : String) (m : Said) : Except Failed Unit :=
  if m.attached.all fun a => a.1 ≠ kind || w.decodes kind a.2 then .ok ()
  else
    .error { code := .badRequest
             text := "an attachment is not " ++ what ++ ", or is out of the data area" }

def attachments (messages : List Said) : Except Failed Unit :=
  messages.forM fun m => do
    w.decodesAll 0 "an image" m
    w.decodesAll 1 "a WAV file" m

/-- A Chat up to the point where its answer starts to stream. -/
def startChat (c : Chat) : Except Failed Unit := do
  w.ready c.model
  w.attachments c.messages
  ofEngine w.chat

end World

def cancelled : Failed := { code := .cancelled, text := "cancelled" }

def badRequest : Failed :=
  { code := .badRequest, text := "not a request of tachyon.xml, or out of the shared memory" }

/-- How far a request gets at once: to its last message, or to a stream of texts. -/
inductive Started where
  | last (a : Answer)
  | streams
  deriving DecidableEq, Repr

/-- The last message of a request that came out so. -/
def lastOf (id : UInt64) : Except Failed Answer → Started
  | .ok a => .last a
  | .error f => .last (.error id f)

def plainDone (id : UInt64) : Answer := .done id 0 0 0 0

/-- `run`, up to a Chat's first text. -/
def World.run (w : World) (id : UInt64) : Ask → Started
  | .chat c =>
    match w.startChat c with
    | .ok () => .streams
    | .error f => .last (.error id f)
  | .embed e => lastOf id (w.runEmbed id e)
  | .decide d => lastOf id (w.runDecide id d)
  | .load model _ _ _ => lastOf id ((w.load model).map fun _ => plainDone id)
  | .unload _ => .last (plainDone id)
  | .list => .last (.models id w.models)
  | .shutdown => .last (plainDone id)

/-- `answer`, for a client that has not cancelled. -/
def World.answer (w : World) (area : List UInt8) : Started :=
  match (read area).2 with
  | none => .last (.error (read area).1 badRequest)
  | some ask => w.run (read area).1 ask

/-- The messages that may answer the request in `area`. -/
inductive Answers (area : List UInt8) : Answer → Prop
  | cancelled : Answers area (.error (read area).1 cancelled)
  | last {w : World} {a : Answer} : w.answer area = .last a → Answers area a
  | text {w : World} {t : String} : w.answer area = .streams → Answers area (.text (read area).1 t)
  /-- The stream breaks off with an error of the engine. -/
  | broken {w : World} {e : String} : w.answer area = .streams →
      Answers area (.error (read area).1 { code := .engine, text := e })
  | done {w : World} {prefill decode : UInt64} {prompt tokens : UInt32} :
      w.answer area = .streams → Answers area (.done (read area).1 prefill decode prompt tokens)

/-! ### Every answer carries the number of its request -/

section

open Lists

variable {w : World} {id : UInt64} {a : Answer}

/-- A last message of request `id`. -/
def Answer.Ends (id : UInt64) (a : Answer) : Prop := a.id = id ∧ a.isLast

theorem lastOf_eq {r : Except Failed Answer} (h : lastOf id r = .last a) :
    r = .ok a ∨ ∃ f, r = .error f ∧ a = .error id f := by
  cases r with
  | ok b => exact .inl (congrArg Except.ok (Started.last.inj h))
  | error f => exact .inr ⟨f, rfl, (Started.last.inj h).symm⟩

/-! Nothing but the cancel flag and the loop of the texts reports a cancel. -/

theorem code_of_load {name : String} {f : Failed} (h : w.load name = .error f) :
    f.code ≠ .cancelled := by
  rcases bind_eq_error h with hdir | ⟨-, -, hload⟩
  · unfold World.dir at hdir
    split at hdir
    · cases hdir
    · obtain rfl := Except.error.inj hdir
      simp
  · split at hload
    · cases hload
    · obtain rfl := Except.error.inj hload
      simp

theorem code_of_ready {name : String} {f : Failed} (h : w.ready name = .error f) :
    f.code ≠ .cancelled := by
  unfold World.ready at h
  split at h
  · cases h
  · exact code_of_load h

theorem code_of_ofEngine {α : Type} {r : Except String α} {f : Failed}
    (h : World.ofEngine r = .error f) : f.code ≠ .cancelled := by
  cases r with
  | ok a => cases h
  | error e =>
    obtain rfl := Except.error.inj h
    simp

theorem code_of_runEmbed {e : Embed} {f : Failed} (h : w.runEmbed id e = .error f) :
    f.code ≠ .cancelled := by
  rcases bind_eq_error h with h | ⟨-, -, h⟩
  · exact code_of_ready h
  · rcases bind_eq_error h with h | ⟨rows, -, h⟩
    · exact code_of_ofEngine h
    · dsimp only at h
      split at h
      · cases h
      · obtain rfl := Except.error.inj h
        simp

theorem code_of_runDecide {d : Decide} {f : Failed} (h : w.runDecide id d = .error f) :
    f.code ≠ .cancelled := by
  rcases bind_eq_error h with h | ⟨-, -, h⟩
  · exact code_of_ready h
  · rcases bind_eq_error h with h | ⟨count, -, h⟩
    · exact code_of_ofEngine h
    · dsimp only at h
      split at h
      · cases h
      · obtain rfl := Except.error.inj h
        simp

theorem code_of_decodesAll {kind : UInt8} {what : String} {m : Said} {f : Failed}
    (h : w.decodesAll kind what m = .error f) : f.code ≠ .cancelled := by
  unfold World.decodesAll at h
  split at h
  · cases h
  · obtain rfl := Except.error.inj h
    simp

theorem code_of_attachments {messages : List Said} {f : Failed}
    (h : w.attachments messages = .error f) : f.code ≠ .cancelled := by
  induction messages with
  | nil => cases h
  | cons m messages ih =>
    rcases bind_eq_error h with h | ⟨-, -, h⟩
    · rcases bind_eq_error h with h | ⟨-, -, h⟩
      · exact code_of_decodesAll h
      · exact code_of_decodesAll h
    · exact ih h

theorem code_of_startChat {c : Chat} {f : Failed} (h : w.startChat c = .error f) :
    f.code ≠ .cancelled := by
  rcases bind_eq_error h with h | ⟨-, -, h⟩
  · exact code_of_ready h
  · rcases bind_eq_error h with h | ⟨-, -, h⟩
    · exact code_of_attachments h
    · exact code_of_ofEngine h

theorem runEmbed_ok {e : Embed} (h : w.runEmbed id e = .ok a) :
    ∃ count dims, a = .embedded id count dims := by
  obtain ⟨-, -, h⟩ := bind_eq_ok h
  obtain ⟨rows, -, h⟩ := bind_eq_ok h
  dsimp only at h
  split at h
  · exact ⟨_, _, (Except.ok.inj h).symm⟩
  · cases h

theorem runDecide_ok {d : Decide} (h : w.runDecide id d = .ok a) :
    ∃ count : Asked → ℕ, a = .decided id ((d.questions.map count).map UInt32.ofNat) := by
  obtain ⟨-, -, h⟩ := bind_eq_ok h
  obtain ⟨count, -, h⟩ := bind_eq_ok h
  dsimp only at h
  split at h
  · exact ⟨count, (Except.ok.inj h).symm⟩
  · cases h

/-- What a request that does not stream may be answered with. -/
theorem run_eq_last {ask : Ask} (h : w.run id ask = .last a) :
    (∃ f, f.code ≠ .cancelled ∧ a = .error id f) ∨ a = plainDone id ∨ a = .models id w.models ∨
      (∃ count dims, a = .embedded id count dims) ∨
      ∃ (d : Decide) (count : Asked → ℕ), ask = .decide d ∧
        a = .decided id ((d.questions.map count).map UInt32.ofNat) := by
  cases ask with
  | chat c =>
    simp only [World.run] at h
    split at h
    · cases h
    · next f hf => exact .inl ⟨f, code_of_startChat hf, (Started.last.inj h).symm⟩
  | embed e =>
    rcases lastOf_eq h with hok | ⟨f, herror, ha⟩
    · exact .inr (.inr (.inr (.inl (runEmbed_ok hok))))
    · exact .inl ⟨f, code_of_runEmbed herror, ha⟩
  | decide d =>
    rcases lastOf_eq h with hok | ⟨f, herror, ha⟩
    · obtain ⟨count, ha⟩ := runDecide_ok hok
      exact .inr (.inr (.inr (.inr ⟨d, count, rfl, ha⟩)))
    · exact .inl ⟨f, code_of_runDecide herror, ha⟩
  | load model keep context pin =>
    cases hload : w.load model with
    | ok u =>
      rw [World.run, hload] at h
      exact .inr (.inl (Started.last.inj h).symm)
    | error f =>
      rw [World.run, hload] at h
      exact .inl ⟨f, code_of_load hload, (Started.last.inj h).symm⟩
  | unload model | shutdown => exact .inr (.inl (Started.last.inj h).symm)
  | list => exact .inr (.inr (.inl (Started.last.inj h).symm))

theorem ends_of_run {ask : Ask} (h : w.run id ask = .last a) : a.Ends id := by
  obtain ⟨f, -, rfl⟩ | rfl | rfl | ⟨count, dims, rfl⟩ | ⟨d, count, -, rfl⟩ := run_eq_last h <;>
    exact ⟨rfl, rfl⟩

theorem not_cancelled_of_answer {area : List UInt8} (h : w.answer area = .last a) (i : UInt64) :
    a ≠ .error i cancelled := by
  rintro rfl
  unfold World.answer at h
  split at h
  · cases h
  · obtain ⟨f, hf, ha⟩ | ha | ha | ⟨count, dims, ha⟩ | ⟨d, count, -, ha⟩ := run_eq_last h
    · exact hf (congrArg Failed.code (Answer.error.inj ha).2).symm
    all_goals cases ha

/-- What `answer` comes to without streaming is a last message of the request it read. -/
theorem ends_of_answer {area : List UInt8} (h : w.answer area = .last a) :
    a.Ends (read area).1 := by
  unfold World.answer at h
  split at h
  · obtain rfl := Started.last.inj h
    exact ⟨rfl, rfl⟩
  · exact ends_of_run h

end

end Chatlink.Serve
