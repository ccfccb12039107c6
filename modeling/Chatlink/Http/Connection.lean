import Chatlink.Hub.Fetch
import Chatlink.Lib.Utf8

/-!
# Reading answers

A connection reads heads, lines and bodies out of one buffer, which is filled up by reads of any size.
-/
namespace Chatlink.Http

open Digits Split Utf8

/-- Longest response head. -/
def MAX_HEAD : ℕ := 64 * 2 ^ 10

def CRLF : List UInt8 := [13, 10]

/-- What was received and not taken yet, and what the reads to come return; behind them, and at an
empty one, the connection has ended. -/
structure Feed where
  buf : List UInt8
  reads : List (List UInt8)
  deriving DecidableEq, Repr

structure Connection where
  feed : Feed
  closing : Bool
  deriving DecidableEq, Repr

structure Response where
  status : ℕ
  /-- Every header, name lowercase, in order. -/
  headers : List (List Char × List Char)
  deriving DecidableEq, Repr

/-! ## Text -/

def isWhitespace (c : Char) : Bool :=
  (0x09 ≤ c.toNat ∧ c.toNat ≤ 0x0D) || (0x2000 ≤ c.toNat ∧ c.toNat ≤ 0x200A) ||
    c.toNat ∈ [0x20, 0x85, 0xA0, 0x1680, 0x2028, 0x2029, 0x202F, 0x205F, 0x3000]

def trim (cs : List Char) : List Char := ((cs.dropWhile isWhitespace).reverse.dropWhile isWhitespace).reverse

def lower (cs : List Char) : List Char := cs.map Char.toLower

/-- The lines of a text. -/
def lines : List Char → List (List Char)
  | [] => [[]]
  | '\r' :: '\n' :: cs => [] :: lines cs
  | c :: cs =>
    match lines cs with
    | [] => [[c]]
    | l :: ls => (c :: l) :: ls

/-! ## Responses -/

/-- The first header of a name. -/
def Response.header (r : Response) (name : List Char) : Option (List Char) :=
  (r.headers.find? fun h => h.1 = name).map Prod.snd

def Response.length (r : Response) : Option ℕ := (r.header "content-length".toList).bind fun v => parse 10 64 (trim v)

/-- The server will close the connection after it. -/
def Response.closes (r : Response) : Bool :=
  (r.header "connection".toList).any fun v => decide (lower v = "close".toList)

/-- Statuses without a body. -/
def bodyless (status : ℕ) : Bool := (100 ≤ status ∧ status ≤ 199) || status = 204 || status = 304

/-- The second word of the status line. -/
def parseStatus (line : List Char) : Option ℕ :=
  (cut [' '] line).bind fun p => parse 10 16 (p.2.takeWhile (· ≠ ' '))

def parseHeader (line : List Char) : Option (List Char × List Char) :=
  (cut [':'] line).map fun p => (lower (trim p.1), trim p.2)

def parseHead (text : List Char) : Option Response :=
  match lines text with
  | [] => none
  | first :: rest => (parseStatus first).map fun status => ⟨status, rest.filterMap parseHeader⟩

/-! ## Reading -/

/-- What stands before `sep`, filling up the buffer until it is there. -/
def upTo (sep : List UInt8) : List (List UInt8) → List UInt8 → Option (List UInt8 × Feed)
  | [], buf => (cut sep buf).map fun p => (p.1, ⟨p.2, []⟩)
  | r :: reads, buf =>
    match cut sep buf with
    | some (text, rest) => some (text, ⟨rest, r :: reads⟩)
    | none => if MAX_HEAD < buf.length ∨ r = [] then none else upTo sep reads (buf ++ r)

/-- Reads and parses a response head. -/
def Feed.head (f : Feed) : Option (Response × Feed) := do
  let (text, f) ← upTo (CRLF ++ CRLF) f.reads f.buf
  let response ← parseHead (lossy text)
  return (response, f)

/-- The next line. -/
def Feed.line (f : Feed) : Option (List Char × Feed) :=
  (upTo CRLF f.reads f.buf).map fun p => (lossy p.1, p.2)

/-- A piece handed to the sink, unless it is empty. -/
def give (piece : List UInt8) : List (List UInt8) := if piece.isEmpty then [] else [piece]

/-- Hands `len` body bytes to the sink: those in the buffer, then those of the next read. -/
def exact : List (List UInt8) → ℕ → List UInt8 → Option (List (List UInt8) × Feed)
  | reads, len, buf =>
    if len ≤ buf.length then some (give (buf.take len), ⟨buf.drop len, reads⟩)
    else
      match reads with
      | [] => none
      | r :: reads =>
        if r.isEmpty then none else (exact reads (len - buf.length) r).map fun p => (give buf ++ p.1, p.2)

/-- Lines up to an empty one, `fuel` at most. -/
def trailers : ℕ → Feed → Option Feed
  | 0, _ => none
  | fuel + 1, f =>
    match f.line with
    | none => none
    | some (line, f) => if line.isEmpty then some f else trailers fuel f

/-- Hands a chunked body to the sink, of `fuel` chunks at most. -/
def chunked : ℕ → Feed → Option (List (List UInt8) × Feed)
  | 0, _ => none
  | fuel + 1, f => do
    let (line, f) ← f.line
    let size ← parse 16 64 (trim (line.takeWhile (· ≠ ';')))
    if size = 0 then
      let f ← trailers fuel f
      return ([], f)
    else
      let (pieces, f) ← exact f.reads size f.buf
      let (_, f) ← f.line
      let (rest, f) ← chunked fuel f
      return (pieces ++ rest, f)

/-- Hands everything up to the end of the connection to the sink. -/
def untilClosed : List (List UInt8) → List UInt8 → List (List UInt8) × Feed
  | [], buf => (give buf, ⟨[], []⟩)
  | r :: reads, buf =>
    if r.isEmpty then (give buf, ⟨[], reads⟩)
    else
      let p := untilClosed reads r
      (give buf ++ p.1, p.2)

/-- The bytes to come: no body has more lines. -/
def Feed.bytes (f : Feed) : List UInt8 := f.buf ++ f.reads.flatten

/-- Hands the body of a response to the sink, and whether it ended with the connection. -/
def Feed.body (f : Feed) (response : Response) : Option (List (List UInt8) × Feed × Bool) :=
  if (response.header "transfer-encoding".toList).any fun te => decide (lower te = "chunked".toList) then
    (chunked (f.bytes.length + 1) f).map fun p => (p.1, p.2, false)
  else
    match response.length with
    | some len => (exact f.reads len f.buf).map fun p => (p.1, p.2, false)
    | none =>
      let p := untilClosed f.reads f.buf
      some (p.1, p.2, true)

/-- The answer to a request that was written: the response, and the pieces of its body that the sink gets. -/
def Connection.get (c : Connection) : Option ((Response × List (List UInt8)) × Connection) := do
  let (response, feed) ← c.feed.head
  if bodyless response.status then return ((response, []), ⟨feed, response.closes⟩)
  else
    let (pieces, feed, ended) ← feed.body response
    -- A redirect's body is dropped.
    return ((response, if Hub.isRedirect response.status then [] else pieces), ⟨feed, response.closes || ended⟩)

/-- The answers to `n` requests, one after the other. -/
def Connection.gets : ℕ → Connection → Option (List (Response × List (List UInt8)) × Connection)
  | 0, c => some ([], c)
  | n + 1, c => do
    let (answer, c) ← c.get
    let (answers, c) ← c.gets n
    return (answer :: answers, c)

end Chatlink.Http
