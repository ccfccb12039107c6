import Chatlink.Http.Connection

/-!
# Well-formed answers

An answer as the protocol has it: a status, fields, and a body in one of the framings, with the bytes
that a server writes for it.
-/
namespace Chatlink.Http

open Digits Utf8

/-- The bytes of a text of ASCII. -/
def bytes (s : String) : List UInt8 := s.toList.map fun c => c.toNat.toUInt8

def line (text : List UInt8) : List UInt8 := text ++ CRLF

structure Field where
  name : List UInt8
  value : List UInt8
  deriving DecidableEq, Repr

/-- Some bytes of a chunked body, behind their number in hexadecimal and perhaps an extension. -/
structure Chunk where
  size : List UInt8
  ext : List UInt8
  data : List UInt8
  deriving DecidableEq, Repr

inductive Body where
  | none
  /-- As many bytes as `Content-Length` says. -/
  | counted (data : List UInt8)
  | chunked (chunks : List Chunk) (zero ext : List UInt8) (trailers : List (List UInt8))
  /-- All bytes up to the end of the connection. -/
  | toEnd (data : List UInt8)
  deriving DecidableEq, Repr

structure Message where
  status : ℕ
  reason : List UInt8
  fields : List Field
  body : Body
  deriving DecidableEq, Repr

/-! ## What is written -/

def Field.line (f : Field) : List UInt8 := f.name ++ 58 :: f.value

def Chunk.wire (c : Chunk) : List UInt8 := Http.line (c.size ++ c.ext) ++ Http.line c.data

def Body.wire : Body → List UInt8
  | .none => []
  | .counted data => data
  | .chunked chunks zero ext trailers =>
    chunks.flatMap Chunk.wire ++ line (zero ++ ext) ++ trailers.flatMap line ++ CRLF
  | .toEnd data => data

/-- Three digits. -/
def code (status : ℕ) : List UInt8 :=
  [(48 + status / 100).toUInt8, (48 + status / 10 % 10).toUInt8, (48 + status % 10).toUInt8]

def Message.statusLine (m : Message) : List UInt8 := bytes "HTTP/1.1" ++ 32 :: (code m.status ++ 32 :: m.reason)

def Message.head (m : Message) : List UInt8 := (m.statusLine :: m.fields.map Field.line).flatMap line ++ CRLF

def Message.wire (m : Message) : List UInt8 := m.head ++ m.body.wire

/-! ## What it says -/

def Field.header (f : Field) : List Char × List Char := (lower (trim (lossy f.name)), trim (lossy f.value))

def Message.response (m : Message) : Response := ⟨m.status, m.fields.map Field.header⟩

def Body.data : Body → List UInt8
  | .none => []
  | .counted data => data
  | .chunked chunks _ _ _ => chunks.flatMap Chunk.data
  | .toEnd data => data

/-- What the sink is to get: the body, unless it is that of a redirect. -/
def Message.handed (m : Message) : List UInt8 := if Hub.isRedirect m.status then [] else m.body.data

/-! ## Well-formed -/

/-- No line ends in it. -/
def Plain (text : List UInt8) : Prop := 13 ∉ text ∧ 10 ∉ text

structure Field.WellFormed (f : Field) : Prop where
  name : Plain f.name
  colon : 58 ∉ f.name
  value : Plain f.value

/-- A line that says how long a chunk is: digits, and perhaps an extension behind blanks and a semicolon. -/
structure SizeLine (size ext : List UInt8) (n : ℕ) : Prop where
  digits : Numeral 16 (size.map ascii) n
  plain : Plain ext
  blank : ∀ b ∈ ext.takeWhile (· ≠ 59), b = 32 ∨ b = 9
  short : (line (size ++ ext)).length ≤ MAX_HEAD

structure Chunk.WellFormed (c : Chunk) : Prop where
  sized : SizeLine c.size c.ext c.data.length
  some : c.data ≠ []
  length : c.data.length < 2 ^ 64

/-- A trailer field, by its line. -/
structure Trailer (text : List UInt8) : Prop where
  plain : Plain text
  some : text ≠ []
  short : (line text).length ≤ MAX_HEAD

/-- The framing is what the status and the fields tell. -/
def Message.Framed (m : Message) : Prop :=
  match m.body with
  | .none => bodyless m.status = true
  | .counted data => bodyless m.status = false ∧ m.response.header "transfer-encoding".toList = none ∧
      data.length < 2 ^ 64 ∧ ∃ v, m.response.header "content-length".toList = some v ∧ Numeral 10 v data.length
  | .chunked chunks zero ext trailers => bodyless m.status = false ∧
      (∃ v, m.response.header "transfer-encoding".toList = some v ∧ lower v = "chunked".toList) ∧
      (∀ c ∈ chunks, c.WellFormed) ∧ SizeLine zero ext 0 ∧ ∀ t ∈ trailers, Trailer t
  | .toEnd _ => bodyless m.status = false ∧ m.response.header "transfer-encoding".toList = none ∧
      m.response.header "content-length".toList = none

/-- A response with a head of at most 64 KiB. -/
structure Message.WellFormed (m : Message) : Prop where
  status : 100 ≤ m.status ∧ m.status < 1000
  reason : Plain m.reason
  fields : ∀ f ∈ m.fields, f.WellFormed
  short : m.head.length ≤ MAX_HEAD
  framed : m.Framed

/-- Only the last answer ends with the connection. -/
def Delimited : List Message → List UInt8 → Prop
  | [], _ => True
  | m :: ms, rest => ((∃ data, m.body = .toEnd data) → ms = [] ∧ rest = []) ∧ Delimited ms rest

end Chatlink.Http
