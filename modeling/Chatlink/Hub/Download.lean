import Chatlink.Hub.Fetch
import Chatlink.Lib.Files
import Chatlink.Lib.Transition

/-!
# Downloads in chunks

A file is downloaded to a part file, with a byte per chunk in a state file, by several workers; two
other threads hash and flush the chunks in order. Servers answer as they like, writes and
connections may fail, threads take turns in any order and the process may be killed at any point.
What is in the files outlives it.
-/
namespace Chatlink.Hub

open Files

/-- Bytes per chunk. -/
def CHUNK : ℕ := 8 * 2 ^ 20

/-- Attempts per chunk before the download gives up. -/
def ATTEMPTS : ℕ := 5

/-- Chunks a download keeps requested at once. -/
def IN_FLIGHT : ℕ := 32

/-- A byte of the part file, and whether it came in a 206 answer to a request for its place. -/
structure Cell where
  byte : UInt8
  asked : Bool
  deriving DecidableEq, Repr

instance : Zero Cell := ⟨⟨0, false⟩⟩

structure Config where
  /-- Where the Hub has the file, and the token for it. -/
  first : Url
  auth : Option String
  size : ℕ
  sha : List UInt8
  /-- SHA-256 of some bytes. -/
  digest : List UInt8 → List UInt8
  connections : ℕ

/-! ## Threads -/

/-- The chunks `frm..stop` that `fetch_run` was called for, of which `frm..past` were missing. -/
structure Task where
  attempt : ℕ
  frm : ℕ
  past : ℕ
  stop : ℕ
  deriving DecidableEq, Repr

/-- An attempt at the chunks `a..b`: one fetch. -/
structure Attempt where
  task : Task
  a : ℕ
  b : ℕ
  fetch : Fetch
  deriving DecidableEq, Repr

/-- Where a worker stands. -/
inductive Phase where
  | claiming
  /-- Some chunks are taken, from `first` on. -/
  | claimed (first : ℕ)
  | scanning (at_ stop : ℕ)
  | trying (t : Task)
  /-- About to send a request. -/
  | asking (r : Attempt)
  /-- Waiting for an answer. -/
  | asked (r : Attempt)
  /-- Writing a body, from `at_` on; `chunk` is the next to be marked. -/
  | body (r : Attempt) (status : ℕ) (at_ chunk : ℕ)
  | failing (t : Task)
  | ended
  deriving DecidableEq, Repr

structure Worker where
  conn : Option Connection
  phase : Phase
  deriving DecidableEq, Repr

/-- The hashing: at a chunk with the bytes before it, over, stopped by a failure, or broken. -/
inductive Hashing where
  | running (i : ℕ) (bytes : List UInt8)
  | whole (bytes : List UInt8)
  | stopped
  | broken
  deriving DecidableEq, Repr

inductive Flushing where
  | running (i : ℕ)
  | over
  | broken
  deriving DecidableEq, Repr

/-- Where `run` stands behind the threads' start. -/
inductive Main where
  | joining
  | mismatch
  | matching
  | synced
  | renamed
  | returned (ok : Bool)
  deriving DecidableEq, Repr

/-- What is lost when the process ends. -/
structure Proc where
  /-- The chunks that were marked when it started. -/
  had : ℕ → Bool
  done : ℕ → Bool
  next : ℕ
  failed : Bool
  url : Option Url
  workers : ℕ → Worker
  hash : Hashing
  flush : Flushing
  main : Main
  /-- The chunks that were asked for. -/
  fetched : List ℕ

structure System where
  part : Option (List Cell)
  state : Option (List UInt8)
  target : Option (List Cell)
  proc : Option Proc
  /-- Every request that was written. -/
  log : List Request

/-! ## Inputs -/

/-- What a worker does or meets. -/
inductive Act where
  /-- The next step where nothing decides it. -/
  | go
  /-- A connection is opened or used again, and the request written, or it fails. -/
  | send (opened : Bool)
  /-- A redirect, and whether the server closes the connection behind it. -/
  | redirect (status : ℕ) (location : Option String) (closing : Bool)
  | head (status : ℕ) (closing : Bool)
  /-- A piece of a body, written whole or only as far as `torn` says. -/
  | piece (bytes : List UInt8) (torn : Option ℕ)
  /-- A chunk that is whole is marked, if the state file can be written. -/
  | mark (written : Bool)
  | finish
  /-- The connection fails. -/
  | error
  deriving DecidableEq, Repr

/-- How far opening the files comes. -/
inductive Opening where
  | half
  | opened
  | sized
  | started
  deriving DecidableEq, Repr

inductive Input where
  | start (o : Opening)
  | worker (k : ℕ) (act : Act)
  /-- The next chunk is hashed, if it can be read. -/
  | hash (read : Bool)
  | flush (synced : Bool)
  /-- All threads have ended. -/
  | join
  /-- What `run` does to the files behind the threads, if it can. -/
  | settle (done : Bool)
  /-- The process ends, by itself or not. -/
  | kill
  deriving DecidableEq, Repr

/-! ## Parts -/

variable (c : Config)

def Config.chunks : ℕ := (c.size + (CHUNK - 1)) / CHUNK

/-- The number of workers. -/
def Config.workers : ℕ := max 1 (min c.connections 64)

/-- Chunks a worker takes at a time. -/
def Config.run : ℕ := max 1 (IN_FLIGHT / c.workers)

/-- Where a chunk starts, and its length. -/
def Config.span (i : ℕ) : ℕ × ℕ := (i * CHUNK, min CHUNK (c.size - i * CHUNK))

def Config.finish (i : ℕ) : ℕ := (c.span i).1 + (c.span i).2

/-- The first run of consecutive missing chunks. -/
def missing (done : ℕ → Bool) (frm stop : ℕ) : Option (ℕ × ℕ) := do
  let first ← (List.range' frm (stop - frm)).find? fun i => !done i
  return (first, ((List.range' first (stop - first)).find? done).getD stop)

/-- The headers of a request for the bytes of the chunks `a..b`. -/
def Config.headers (url : Url) (a b : ℕ) : List (String × String) :=
  ("Range", "bytes=" ++ toString (c.span a).1 ++ "-" ++ toString (c.finish (b - 1) - 1)) ::
    ((c.auth.filter fun _ => url.host = c.first.host).map fun t => ("Authorization", t)).toList

/-- Chunks whose byte is 1. -/
def flags (state : List UInt8) (i : ℕ) : Bool := state[i]? = some 1

def Proc.start (had : ℕ → Bool) : Proc :=
  { had, done := had, next := 0, failed := false, url := none, workers := fun _ => ⟨none, .claiming⟩
    hash := .running 0 [], flush := .running 0, main := .joining, fetched := [] }

/-- A file cut or filled up with zeros to a size. -/
def setLen (file : List Cell) (n : ℕ) : List Cell := file.take n ++ List.replicate (n - file.length) 0

/-! ## Steps of a worker -/

def Proc.setWorker (p : Proc) (k : ℕ) (w : Worker) : Proc := { p with workers := Function.update p.workers k w }

/-- The cells of a piece at an offset; those of a 206 answer are what was asked for, up to the end of its range. -/
def cells (r : Attempt) (status at_ : ℕ) (bytes : List UInt8) : List Cell :=
  bytes.mapIdx fun j x => ⟨x, decide (status = 206 ∧ at_ + j < c.finish (r.b - 1))⟩

def workerGo (s : System) (p : Proc) (k : ℕ) : Option System :=
  let w := p.workers k
  let put (p : Proc) (phase : Phase) : Option System := some { s with proc := p.setWorker k { w with phase } }
  match w.phase with
  | .claiming => put { p with next := p.next + c.run } (.claimed p.next)
  | .claimed first =>
    if c.chunks ≤ first ∨ p.failed then put p .ended else put p (.scanning first (min (first + c.run) c.chunks))
  | .scanning at_ stop =>
    match missing p.done at_ stop with
    | none => put p .claiming
    | some (frm, past) => put p (.trying ⟨1, frm, past, stop⟩)
  | .trying t =>
    match missing p.done t.frm t.stop with
    | none => put p (.scanning t.past t.stop)
    | some (a, b) =>
      let url := p.url.getD c.first
      put { p with fetched := p.fetched ++ List.range' a (b - a) } (.asking ⟨t, a, b, .begin url (c.headers url a b)⟩)
  | .failing t =>
    if t.attempt = ATTEMPTS then put { p with failed := true } .ended
    else some { s with proc := p.setWorker k ⟨none, .trying { t with attempt := t.attempt + 1 }⟩ }
  | _ => none

def workerAct (s : System) (p : Proc) (k : ℕ) : Act → Option System
  | .go => workerGo c s p k
  | .send opened =>
    match (p.workers k).phase with
    | .asking r =>
      if opened then
        let conn := connect (p.workers k).conn r.fetch.url
        some { s with proc := p.setWorker k ⟨some conn, .asked r⟩, log := s.log ++ [r.fetch.request conn] }
      else some { s with proc := p.setWorker k ⟨(p.workers k).conn, .failing r.task⟩ }
    | _ => none
  | .redirect status location closing =>
    match (p.workers k).phase with
    | .asked r =>
      if isRedirect status then
        let conn := (p.workers k).conn.map fun conn => { conn with closing }
        match r.fetch.redirect location with
        | some fetch => some { s with proc := p.setWorker k ⟨conn, .asking { r with fetch }⟩ }
        | none => some { s with proc := p.setWorker k ⟨conn, .failing r.task⟩ }
      else none
    | _ => none
  | .head status closing =>
    match (p.workers k).phase with
    | .asked r =>
      if isRedirect status then none
      else
        let conn := (p.workers k).conn.map fun conn => { conn with closing }
        some { s with proc := p.setWorker k ⟨conn, .body r status (c.span r.a).1 r.a⟩ }
    | _ => none
  | .piece bytes torn =>
    match (p.workers k).phase, s.part with
    | .body r status at_ chunk, some part =>
      -- The marks of the last piece come first.
      if chunk < r.b ∧ c.finish chunk ≤ at_ then none
      else
        match torn with
        | none => some { s with
            part := put part at_ (cells c r status at_ bytes)
            proc := p.setWorker k { p.workers k with phase := .body r status (at_ + bytes.length) chunk } }
        | some n => some { s with
            part := put part at_ (cells c r status at_ (bytes.take n))
            proc := p.setWorker k { p.workers k with phase := .failing r.task } }
    | _, _ => none
  | .mark written =>
    match (p.workers k).phase, s.state with
    | .body r status at_ chunk, some state =>
      if chunk < r.b ∧ c.finish chunk ≤ at_ then
        let p := p.setWorker k { p.workers k with phase := .body r status at_ (chunk + 1) }
        if written then some { s with
          state := put state chunk [1]
          proc := some { p with done := Function.update p.done chunk true } }
        else some { s with proc := p }
      else none
    | _, _ => none
  | .finish =>
    match (p.workers k).phase with
    | .body r status at_ chunk =>
      if chunk < r.b ∧ c.finish chunk ≤ at_ then none
      else
        -- A signed URL that expired: the next attempt asks the Hub again.
        let p := { p with url := if status ∈ [401, 403, 410] then none else some r.fetch.url }
        let phase := if status ≠ 206 ∨ at_ ≠ c.finish (r.b - 1) then .failing r.task
          else .scanning r.task.past r.task.stop
        some { s with proc := p.setWorker k { p.workers k with phase } }
    | _ => none
  | .error =>
    match (p.workers k).phase with
    | .asked r => some { s with proc := p.setWorker k { p.workers k with phase := .failing r.task } }
    | .body r _ at_ chunk =>
      if chunk < r.b ∧ c.finish chunk ≤ at_ then none
      else some { s with proc := p.setWorker k { p.workers k with phase := .failing r.task } }
    | _ => none

/-! ## Steps of the other threads -/

/-- What `run` finds once all threads have ended. -/
def judge (p : Proc) : Main :=
  match p.hash, p.flush with
  | .broken, _ => .returned false
  | _, .broken => .returned false
  | hash, _ =>
    if p.failed then .returned false
    else
      let digest := match hash with
        | .whole bytes => c.digest bytes
        | _ => List.replicate 32 0
      if digest = c.sha then .matching else .mismatch

def procStep (s : System) (p : Proc) : Input → Option System
  | .start _ => none
  | .worker k act => if k < c.workers then workerAct c s p k act else none
  | .hash read =>
    match p.hash, s.part with
    | .running i bytes, some part =>
      if c.chunks ≤ i then some { s with proc := some { p with hash := .whole bytes } }
      else if p.done i then
        if read ∧ c.finish i ≤ part.length then
          let chunk := (slice part (c.span i).1 (c.span i).2).map Cell.byte
          some { s with proc := some { p with hash := .running (i + 1) (bytes ++ chunk) } }
        else some { s with proc := some { p with hash := .broken } }
      else if p.failed then some { s with proc := some { p with hash := .stopped } }
      else none
    | _, _ => none
  | .flush synced =>
    match p.flush with
    | .running i =>
      if c.chunks ≤ i then some { s with proc := some { p with flush := .over } }
      else if p.done i then
        some { s with proc := some { p with flush := if synced then .running (i + 1) else .broken } }
      else if p.failed then some { s with proc := some { p with flush := .over } }
      else none
    | _ => none
  | .join =>
    match p.main, p.hash, p.flush with
    | _, .running _ _, _ => none
    | _, _, .running _ => none
    | .joining, _, _ =>
      if ∀ k < c.workers, (p.workers k).phase = .ended then some { s with proc := some { p with main := judge c p } }
      else none
    | _, _, _ => none
  | .settle done =>
    match p.main with
    | .mismatch => some { s with
        state := if done then none else s.state
        proc := some { p with main := .returned false } }
    | .matching => some { s with proc := some { p with main := if done then .synced else .returned false } }
    | .synced =>
      if done then some { s with part := none, target := s.part, proc := some { p with main := .renamed } }
      else some { s with proc := some { p with main := .returned false } }
    | .renamed => some { s with
        state := if done then none else s.state
        proc := some { p with main := .returned done } }
    | _ => none
  | .kill => some { s with proc := none }

/-- `download`, unless the file is there already. -/
def start (s : System) (o : Opening) : Option System :=
  if s.target.any fun t => t.length = c.size then none
  else
    let part := s.part.getD []
    let state := s.state.getD []
    match o with
    | .half => some { s with part := some part }
    | .opened => some { s with part := some part, state := some state }
    | .sized => some { s with part := some (setLen part c.size), state := some state }
    | .started => some { s with part := some (setLen part c.size), state := some state,
                                proc := some (Proc.start (flags state)) }

def step (s : System) (inp : Input) : Option System :=
  match s.proc, inp with
  | none, .start o => start c s o
  | none, _ => none
  | some p, inp => procStep c s p inp

end Chatlink.Hub
