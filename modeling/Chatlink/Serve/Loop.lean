import Chatlink.Lib.Transition
import Chatlink.Serve.Answers

/-!
# The daemon's loop

One thread polls the clients, reads the doorbells of those that rang or left, and answers
the queued requests one after the other; between the texts of a Chat it reads the doorbells
of that client again. Doorbells arrive at any time and are read in pieces of at most 64.
The slots of clients that left are used again; a connection has a number of its own, which
the program does not know, so that what reaches whom can be told.

Clients are honest: they ring for a request when the answer to the one before has ended. A
client that left, or whose socket fails, has `open_` false; what is sent to it may go nowhere.

A message goes into the client's ring where there is room for it. Where there is none the daemon
waits, and takes no other step, until the client has read enough or is gone.

`accepted` lists the requests in the order their doorbells were read, `answered` those whose
last message is out.
-/
namespace Chatlink.Serve

open FrameRing (need)

inductive Bell where
  | request | cancel
  deriving DecidableEq, Repr

/-- A connection: what the client rang and wrote, how much of it the daemon has read, the
daemon's two flags, and the messages sent. `asked` are the numbers of its requests. Of its ring,
the head, the tail, and the positions to which the client will move the tail. -/
structure Conn where
  open_ : Bool := true
  rung : List Bell := []
  area : List UInt8 := []
  asked : List UInt64 := []
  got : ℕ := 0
  queued : Bool := false
  cancel : Bool := false
  out : List Answer := []
  head : ℕ := 0
  tail : ℕ := 0
  ends : List ℕ := []

namespace Conn

/-- Doorbells that wait in the socket. -/
def unread (c : Conn) : List Bell := c.rung.drop c.got

/-- The last messages of its answers. -/
def lasts (c : Conn) : List Answer := c.out.filter Answer.isLast

/-- What is skipped before the frame of `a`. -/
def skip (c : Conn) (a : Answer) : ℕ := skipBefore c.head (need a.bytes.length)

/-- Whether the ring has room for `a`. -/
def HasRoom (c : Conn) (a : Answer) : Prop := c.head + c.skip a + need a.bytes.length - c.tail ≤ RING_BYTES

instance (c : Conn) (a : Answer) : Decidable (c.HasRoom a) := inferInstanceAs (Decidable (_ ≤ _))

/-- `append`, once it does not wait any more. -/
def say (c : Conn) (a : Answer) : Conn :=
  let start := c.head + c.skip a
  let stop := start + need a.bytes.length
  { c with
    out := c.out ++ [a]
    head := if c.HasRoom a then stop else c.head
    ends := if c.HasRoom a then c.ends ++ (if c.skip a = 0 then [] else [start]) ++ [stop] else c.ends }

/-- The daemon reads one doorbell. -/
def hear (c : Conn) (b : Bell) : Conn :=
  { c with got := c.got + 1, cancel := b = .cancel || c.cancel && b ≠ .request }

/-- The daemon reads the next `n` doorbells. -/
def hearAll (c : Conn) (n : ℕ) : Conn := (c.unread.take n).foldl hear c

end Conn

/-- Where the daemon is. -/
inductive Phase where
  | poll
  /-- The clients of these slots are to be looked after. -/
  | rings (todo : List ℕ)
  /-- In `bells` for a slot and its connection; whether a request was among them. -/
  | reads (slot conn : ℕ) (asked : Bool) (todo : List ℕ)
  | drains
  /-- Answering a Chat of a connection, numbered. -/
  | streams (conn : ℕ) (id : UInt64)
  /-- In `bells` after a text. -/
  | hears (conn : ℕ) (id : UInt64)
  | stopped
  deriving DecidableEq, Repr

structure Served where
  conns : ℕ → Conn := fun _ => {}
  joined : ℕ := 0
  slots : List (Option ℕ) := []
  queue : List ℕ := []
  phase : Phase := .poll
  stop : Bool := false
  accepted : List (ℕ × UInt64) := []
  answered : List (ℕ × UInt64) := []

inductive Event where
  | request (k : ℕ) (area : List UInt8)
  | cancel (k : ℕ)
  | close (k : ℕ)
  /-- The client moves the tail on. -/
  | read (k : ℕ)
  /-- `poll` returns; whether someone connects. -/
  | poll (join : Bool)
  | ring
  /-- A piece of `n` doorbells is read. -/
  | chunk (n : ℕ)
  /-- No doorbell is left to read. -/
  | block
  | eof
  | pop (w : World)
  | text (t : String)
  /-- A text finds the ring full and the client gone. -/
  | lost (t : String)
  | broken (e : String)
  | done (prefill decode : UInt64) (prompt tokens : UInt32)
  | finish
  /-- `poll` or `expire` fails. -/
  | fail

namespace Served

variable (s : Served)

def set (k : ℕ) (f : Conn → Conn) : Served :=
  { s with conns := fun j => if j = k then f (s.conns j) else s.conns j }

/-- Sends `a` to connection `k`. -/
def say (k : ℕ) (a : Answer) : Served :=
  { s.set k fun c => c.say a with
    answered := if a.isLast then s.answered ++ [(k, a.id)] else s.answered }

/-- Whether `append` of `a` to connection `k` comes back: there is room, or the client left. -/
def Comes (k : ℕ) (a : Answer) : Prop := (s.conns k).HasRoom a ∨ (s.conns k).open_ = false

instance (k : ℕ) (a : Answer) : Decidable (s.Comes k a) := inferInstanceAs (Decidable (_ ∨ _))

/-- Whether the client of a slot has rung or left. -/
def ready (i : ℕ) : Bool :=
  match s.slots[i]? with
  | some (some k) => (s.conns k).unread ≠ [] || !(s.conns k).open_
  | _ => false

/-- A new client takes the first free slot. -/
def place (slots : List (Option ℕ)) (k : ℕ) : List (Option ℕ) :=
  match slots.findIdx? Option.isNone with
  | some free => slots.set free (some k)
  | none => slots ++ [some k]

def accept : Served :=
  { s with joined := s.joined + 1, slots := place s.slots s.joined }

/-- The end of `bells` for a slot: a request joins the queue. -/
def enqueue (i k : ℕ) : Served :=
  { s.set k fun c => { c with queued := true } with
    queue := s.queue ++ [i]
    accepted := s.accepted ++ [(k, (read (s.conns k).area).1)] }

/-- The answer is cut off: the client cancelled, or left. -/
def cutOff (k : ℕ) (id : UInt64) : Served :=
  { (s.set k fun c => { c with cancel := false }).say k (.error id cancelled) with phase := .drains }

/-- Answers the request of connection `k`, as far as it gets at once. -/
def answer (k : ℕ) (w : World) : Served :=
  let c := s.conns k
  let s' := s.set k fun c => { c with queued := false, cancel := false }
  if c.cancel then s'.say k (.error (read c.area).1 cancelled)
  else
    let s' := { s' with stop := s.stop || (read c.area).2 = some Ask.shutdown }
    match w.answer c.area with
    | .last a => s'.say k a
    | .streams => { s' with phase := .streams k (read c.area).1 }

/-- The message that `answer` ends with, unless it streams. -/
def reply (k : ℕ) (w : World) : Option Answer :=
  let c := s.conns k
  if c.cancel then some (.error (read c.area).1 cancelled)
  else
    match w.answer c.area with
    | .last a => some a
    | .streams => none

/-- A client's step. -/
def stepClient : Event → Option Served
  | .request k area =>
    let c := s.conns k
    if k < s.joined ∧ c.open_ ∧ c.lasts.length = c.asked.length then
      some (s.set k fun c =>
        { c with area, rung := c.rung ++ [.request], asked := c.asked ++ [(read area).1] })
    else none
  | .cancel k =>
    if k < s.joined ∧ (s.conns k).open_ then
      some (s.set k fun c => { c with rung := c.rung ++ [.cancel] })
    else none
  | .close k =>
    if k < s.joined then some (s.set k fun c => { c with open_ := false }) else none
  | .read k =>
    match (s.conns k).ends with
    | tail :: ends => if k < s.joined ∧ (s.conns k).open_ then some (s.set k fun c => { c with tail, ends }) else none
    | [] => none
  | _ => none

/-- A step of the daemon. -/
def stepDaemon : Event → Option Served
  | .poll join =>
    if s.phase = .poll then
      let todo := (List.range s.slots.length).filter s.ready
      let s' := if join then s.accept else s
      some { s' with phase := .rings todo }
    else none
  | .ring =>
    match s.phase with
    | .rings [] => some { s with phase := .drains }
    | .rings (i :: todo) =>
      match s.slots[i]? with
      | some (some k) => some { s with phase := .reads i k false todo }
      | _ => some { s with phase := .rings todo }
    | _ => none
  | .chunk n =>
    match s.phase with
    | .reads i k asked todo =>
      let c := s.conns k
      if 0 < n ∧ n ≤ 64 ∧ n ≤ c.unread.length then
        some { s.set k fun c => c.hearAll n with
               phase := .reads i k (asked || .request ∈ c.unread.take n) todo }
      else none
    | .hears k _ =>
      if 0 < n ∧ n ≤ 64 ∧ n ≤ (s.conns k).unread.length then
        some (s.set k fun c => c.hearAll n)
      else none
    | _ => none
  | .block =>
    match s.phase with
    | .reads i k asked todo =>
      let c := s.conns k
      if c.unread = [] ∧ c.open_ then
        if asked && !c.queued then some { s.enqueue i k with phase := .rings todo }
        else some { s with phase := .rings todo }
      else none
    | .hears k id =>
      let c := s.conns k
      if c.unread = [] ∧ c.open_ then
        if c.cancel then
          if s.Comes k (.error id cancelled) then some (s.cutOff k id) else none
        else some { s with phase := .streams k id }
      else none
    | _ => none
  | .eof =>
    match s.phase with
    | .reads i k _ todo =>
      let c := s.conns k
      if c.unread = [] ∧ !c.open_ then
        some { s with slots := s.slots.set i none, phase := .rings todo }
      else none
    | .hears k id =>
      let c := s.conns k
      if c.unread = [] ∧ !c.open_ then some (s.cutOff k id) else none
    | _ => none
  | .pop w =>
    match s.phase, s.queue with
    | .drains, i :: queue =>
      let s' := { s with queue }
      match s.slots[i]? with
      | some (some k) =>
        if (s.conns k).queued then
          if ∀ a ∈ s.reply k w, s.Comes k a then some (s'.answer k w) else none
        else some s'
      | _ => some s'
    | _, _ => none
  | .text t =>
    match s.phase with
    | .streams k id =>
      if (s.conns k).HasRoom (.text id t) then some { s.say k (.text id t) with phase := .hears k id }
      else none
    | _ => none
  | .lost t =>
    match s.phase with
    | .streams k id =>
      if ¬(s.conns k).HasRoom (.text id t) ∧ !(s.conns k).open_ then some (s.cutOff k id) else none
    | _ => none
  | .broken e =>
    match s.phase with
    | .streams k id =>
      let a : Answer := .error id { code := .engine, text := e }
      if s.Comes k a then some { s.say k a with phase := .drains } else none
    | _ => none
  | .done prefill decode prompt tokens =>
    match s.phase with
    | .streams k id =>
      let a : Answer := .done id prefill decode prompt tokens
      if s.Comes k a then some { s.say k a with phase := .drains } else none
    | _ => none
  | .finish =>
    if s.phase = .drains ∧ s.queue = [] then
      some { s with stop := false, phase := if s.stop then .stopped else .poll }
    else none
  | .fail => if s.phase = .poll then some { s with phase := .stopped } else none
  | _ => none

def step (s : Served) (e : Event) : Option Served := (s.stepClient e).or (s.stepDaemon e)

def initial : Served := {}

end Served

end Chatlink.Serve
