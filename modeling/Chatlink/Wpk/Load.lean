import Chatlink.Lib.Transition
import Chatlink.Wpk.Format

/-!
# Streaming a data region

A load keeps a few reads in flight, each of one chunk into one slot. The kernel answers them in any
order, with as many bytes as it likes, or with an error; until it answers it may write anything
where a read is to land. On the way to VRAM a chunk that landed is copied from its slot by a stream,
some time before the event that is recorded behind the copy.
-/
namespace Chatlink.Wpk.Load

open Files

/-- Reads in flight, and staging slots. -/
def DEPTH : ℕ := 4

/-- Why a load ends early; `call` is what the driver or the GPU's library returned. -/
inductive Failure where
  | io (errno : ℤ)
  | format (why : String)
  | call
  deriving DecidableEq, Repr

/-- A chunk being read: where it goes, how much of it is wanted, and how much has arrived. -/
structure Slot where
  chunk : ℕ
  ptr : ℕ
  want : ℕ
  done : ℕ
  deriving DecidableEq, Repr

/-- A read that was asked for; its `user_data` is the slot. -/
structure Sqe where
  off : ℕ
  addr : ℕ
  len : ℕ
  userData : Fin DEPTH
  deriving DecidableEq, Repr

/-- Where chunks land: in the staging slots on the way to VRAM, or in their place in host memory. -/
inductive Target where
  | device
  | host
  deriving DecidableEq, Repr

/-- The chunk of memory that a chunk is read into by way of a slot. -/
def Target.place : Target → ℕ → Fin DEPTH → ℕ
  | .device, _, s => s
  | .host, chunk, _ => chunk

structure Config where
  target : Target
  /-- The file, and how much of its data is to be loaded. -/
  file : List UInt8
  len : ℕ

/-- Where the program stands. -/
inductive Point where
  /-- About to refill a slot, for the first time or not. -/
  | refill (s : Fin DEPTH) (first : Bool)
  /-- Waiting for the place of a chunk. -/
  | target (chunk : ℕ) (s : Fin DEPTH) (first : Bool)
  | waiting
  /-- About to hand over the chunk in a slot. -/
  | landed (s : Fin DEPTH)
  | returned
  deriving DecidableEq, Repr

structure State where
  slots : Fin DEPTH → Slot
  next : ℕ
  busy : ℕ
  /-- The result so far, `none` for `Ok`. -/
  result : Option Failure
  point : Point
  /-- The reads the kernel has not answered. -/
  flight : List Sqe
  /-- The memory that is read into. -/
  mem : List UInt8
  /-- The chunks a stream is to copy, and their slots. -/
  uploads : List (ℕ × Fin DEPTH)
  /-- The memory of the GPU. -/
  vram : List UInt8
  /-- The chunks that were handed over. -/
  delivered : List ℕ

inductive Input where
  /-- The next step of the program where nothing decides it. -/
  | go
  /-- The place of a chunk is found, or an error. -/
  | found (err : Option Failure)
  /-- A read is answered. -/
  | completion (k : ℕ) (res : ℤ)
  /-- A chunk is handed over, or an error comes, with the copy under way or not. -/
  | handed (queued : Bool) (err : Option Failure)
  /-- The stream makes its next copy. -/
  | copy
  /-- The kernel writes where a read is to land. -/
  | scribble (k : ℕ) (i : ℕ) (bytes : List UInt8)
  deriving DecidableEq, Repr

variable (c : Config)

def idle : Slot := ⟨0, 0, 0, 0⟩

def start (mem vram : List UInt8) : State :=
  { slots := fun _ => idle, next := 0, busy := 0, result := none, point := .refill ⟨0, by decide⟩ true, flight := [],
    mem, uploads := [], vram, delivered := [] }

/-- Bytes of a chunk. -/
def Config.want (chunk : ℕ) : ℕ := min CHUNK (c.len - chunk * CHUNK)

/-- The read of the rest of a slot's chunk. -/
def request (slot : Slot) (s : Fin DEPTH) : Sqe :=
  ⟨ALIGN + (slot.chunk * CHUNK + slot.done), slot.ptr + slot.done, slot.want - slot.done, s⟩

def submit (st : State) (s : Fin DEPTH) : State :=
  { st with flight := st.flight ++ [request (st.slots s) s], busy := st.busy + 1 }

/-- Behind `refill`: the next slot at first, the wait for a read later. -/
def after (s : Fin DEPTH) (first : Bool) : Point :=
  if h : first ∧ s + 1 < DEPTH then .refill ⟨s + 1, h.2⟩ true else .waiting

def fail (st : State) (err : Failure) : State := { st with result := some err, point := .waiting }

/-- One completion of read `q`, which is no longer in flight. -/
def complete (st : State) (q : Sqe) (res : ℤ) : State :=
  let s := q.userData
  if res < 0 then { st with result := st.result.or (some (.io (-res))) }
  else if res = 0 then { st with result := st.result.or (some (.format "the file ends early")) }
  else
    let slot : Slot := { st.slots s with done := (st.slots s).done + res.toNat }
    let st := { st with slots := Function.update st.slots s slot,
                        mem := put st.mem q.addr (slice c.file q.off res.toNat) }
    if slot.done = slot.want then
      if st.result.isNone then { st with point := .landed s } else st
    else submit st s

def step (st : State) : Input → Option State
  | .go =>
    match st.point with
    | .refill s first =>
      if c.len ≤ st.next * CHUNK then some { st with point := after s first }
      else some { st with next := st.next + 1, point := .target st.next s first }
    | .waiting => if st.busy = 0 then some { st with point := .returned } else none
    | _ => none
  | .found err =>
    match st.point with
    | .target chunk s first =>
      match err with
      | some err => some (fail st err)
      | none =>
        -- The event of a slot comes behind the copy out of it.
        if ∃ u ∈ st.uploads, u.2 = s then none
        else
          let slot : Slot := ⟨chunk, c.target.place chunk s * CHUNK, c.want chunk, 0⟩
          some { submit { st with slots := Function.update st.slots s slot } s with point := after s first }
    | _ => none
  | .completion k res =>
    match st.point, st.flight[k]? with
    | .waiting, some q =>
      if res ≤ q.len ∧ (0 < res → q.off + res.toNat ≤ c.file.length) then
        some (complete c { st with flight := st.flight.eraseIdx k, busy := st.busy - 1 } q res)
      else none
    | _, _ => none
  | .handed queued err =>
    match st.point with
    | .landed s =>
      let chunk := (st.slots s).chunk
      let st := match c.target, queued || err.isNone with
        | .device, true => { st with uploads := st.uploads ++ [(chunk, s)] }
        | _, _ => st
      match err with
      | some err => some (fail st err)
      | none => some { st with delivered := st.delivered ++ [chunk], point := .refill s false }
    | _ => none
  | .copy =>
    match st.uploads with
    | (chunk, s) :: uploads =>
      some { st with uploads, vram := put st.vram (chunk * CHUNK) (slice st.mem (s * CHUNK) (c.want chunk)) }
    | [] => none
  | .scribble k i bytes =>
    match st.flight[k]? with
    | some q => if i + bytes.length ≤ q.len then some { st with mem := put st.mem (q.addr + i) bytes } else none
    | none => none

end Chatlink.Wpk.Load
