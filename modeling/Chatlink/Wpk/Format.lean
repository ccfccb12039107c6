import Chatlink.Lib.Codec
import Chatlink.Lib.Files
import Chatlink.Serve.Sbe

/-!
# Packed weight files

A `.wpk` holds a header of one block, the tensors' bytes, each tensor at the start of a block, and
a table that names them. Opening a file checks the header and the table; `verify` checks the bytes.
The sums of 64-bit numbers wrap where the source does not guard them.
-/
namespace Chatlink.Wpk

open Codec Files Serve.Writer

inductive Error where
  | io
  | format (why : String)
  | tensor (name : String) (why : String)
  deriving DecidableEq, Repr

/-- The alignment of the data region and of every tensor in it. -/
def ALIGN : ℕ := 4096

/-- The bytes of `TACHYWPK`. -/
def MAGIC : List UInt8 := [84, 65, 67, 72, 89, 87, 80, 75]

def VERSION : ℕ := 1

def HEADER : ℕ := 48

def MAX_RANK : ℕ := 8

def CHUNK : ℕ := 16 * 2 ^ 20

inductive Dtype where
  | f32
  | f16
  | bf16
  | f8e4m3
  | i8
  | u8
  deriving DecidableEq, Repr

def Dtype.ALL : List Dtype := [.f32, .f16, .bf16, .f8e4m3, .i8, .u8]

/-- Bytes per element. -/
def Dtype.size : Dtype → ℕ
  | .f32 => 4
  | .f16 => 2
  | .bf16 => 2
  | _ => 1

/-- `dtype as u8`. -/
def Dtype.code : Dtype → ℕ
  | .f32 => 0
  | .f16 => 1
  | .bf16 => 2
  | .f8e4m3 => 3
  | .i8 => 4
  | .u8 => 5

structure Tensor where
  name : String
  dtype : Dtype
  shape : List ℕ
  /-- In the data region. -/
  offset : ℕ
  len : ℕ
  crc : UInt32
  deriving DecidableEq, Repr

/-- The bytes of a tensor, if they can be counted. -/
def bytesOf (dtype : Dtype) (shape : List ℕ) : Option ℕ :=
  shape.foldlM (fun n d => if n * d < 2 ^ 64 then some (n * d) else none) dtype.size

/-- One bit of the CRC. -/
def crcBit (c : UInt32) : UInt32 := (c >>> 1) ^^^ (if c &&& 1 = 1 then 0x82F63B78 else 0)

/-- The CRC register after one byte more. -/
def crcByte (c : UInt32) (b : UInt8) : UInt32 :=
  (List.range 8).foldl (fun c _ => crcBit c) (c ^^^ b.toUInt32)

/-- CRC32C of bytes, continuing from `crc`. -/
def crc32c (crc : UInt32) (bytes : List UInt8) : UInt32 := ~~~ bytes.foldl crcByte (~~~ crc)

/-! ## Fields -/

/-- What is left to read, and whether something was missing. -/
structure Cursor where
  rest : List UInt8
  short : Bool := false
  deriving DecidableEq, Repr

abbrev Reader := StateM Cursor

/-- The next `n` bytes, or none, which is remembered. -/
def take (n : ℕ) : Reader (List UInt8) := fun c =>
  if n ≤ c.rest.length then (c.rest.take n, { c with rest := c.rest.drop n })
  else ([], { c with short := true })

/-- A number of `n` bytes. -/
def int (n : ℕ) : Reader ℕ := do
  let bs ← take n
  return ofLe bs

def ints (n : ℕ) : ℕ → Reader (List ℕ)
  | 0 => return []
  | k + 1 => do
    let x ← int n
    let xs ← ints n k
    return x :: xs

/-- The text of bytes; `lossy` is what becomes of those that are no text. -/
def fromUtf8Lossy (lossy : List UInt8 → String) (bs : List UInt8) : String :=
  (Serve.Reader.fromUtf8 bs).getD (lossy bs)

/-- The message of the first check that fails, of pairs of an outcome and a message. -/
def firstFailure (checks : List (Bool × String)) : Option String :=
  (checks.find? fun c => !c.1).map Prod.snd

/-! ## The table -/

def encodeOne (t : Tensor) : List UInt8 :=
  le 2 (utf8 t.name).length ++ utf8 t.name ++ le 1 t.dtype.code ++ le 1 t.shape.length ++
    (t.shape ++ [t.offset, t.len]).flatMap (le 8) ++ le 4 t.crc.toNat

def encode (tensors : List Tensor) : List UInt8 := tensors.flatMap encodeOne

variable (lossy : List UInt8 → String)

/-- What the table says of a tensor. -/
structure Entry where
  name : String
  dtype : Option Dtype
  rank : ℕ
  shape : List ℕ
  offset : ℕ
  len : ℕ
  crc : ℕ
  deriving DecidableEq, Repr

def entry : Reader Entry := do
  let nameLen ← int 2
  let name ← take nameLen
  let code ← int 1
  let rank ← int 1
  let shape ← ints 8 (min rank MAX_RANK)
  let offset ← int 8
  let len ← int 8
  let crc ← int 4
  return ⟨fromUtf8Lossy lossy name, Dtype.ALL[code]?, rank, shape, offset, len, crc⟩

/-- The checks of an entry, of a table that was `short` or not. -/
def Entry.failure (e : Entry) (dataLen : ℕ) (short : Bool) : Option String :=
  firstFailure [
    (!short, "the tensor table is truncated"),
    (e.dtype.isSome, "unknown element type"),
    (e.rank ≤ MAX_RANK, "more than 8 dimensions"),
    (e.offset % ALIGN = 0, "not 4 KiB aligned"),
    ((e.dtype.bind fun d => bytesOf d e.shape) = some e.len, "its length does not match its shape"),
    (e.offset + e.len < 2 ^ 64 && e.offset + e.len ≤ dataLen, "it lies outside the data region")]

def Entry.check (e : Entry) (dataLen : ℕ) (short : Bool) : Except Error Tensor :=
  match e.failure dataLen short, e.dtype with
  | none, some dtype => .ok ⟨e.name, dtype, e.shape, e.offset, e.len, UInt32.ofNat e.crc⟩
  | why, _ => .error (.tensor e.name (why.getD "invalid"))

def decode (dataLen : ℕ) : Reader (Except Error Tensor) := do
  let e ← entry lossy
  let c ← get
  return e.check dataLen c.short

/-- The first `n` entries, as far as they can be read. -/
def decodeAll (dataLen : ℕ) : ℕ → Reader (Except Error (List Tensor))
  | 0 => return .ok []
  | n + 1 => do
    match ← decode lossy dataLen with
    | .error e => return .error e
    | .ok t => match ← decodeAll dataLen n with
      | .error e => return .error e
      | .ok ts => return .ok (t :: ts)

/-! ## The header -/

/-- The header's numbers, before its own checksum. -/
def headerFields (count dataLen : ℕ) (table : List UInt8) : List UInt8 :=
  MAGIC ++ [VERSION + count % 2 ^ 32 * 2 ^ 32, dataLen, ALIGN + dataLen, table.length].flatMap (le 8) ++
    le 4 (crc32c 0 table).toNat

def header (count dataLen : ℕ) (table : List UInt8) : List UInt8 :=
  let head := headerFields count dataLen table
  let head := head ++ le 4 (crc32c 0 head).toNat
  head ++ List.replicate (ALIGN - head.length) 0

/-- `n` bytes of a file from an offset on. -/
def readExactAt (file : List UInt8) (n at_ : ℕ) : Except Error (List UInt8) :=
  if n = 0 then .ok []
  -- The system takes no offset of more than 63 bits.
  else if 2 ^ 63 ≤ at_ then .error .io
  else if at_ + n ≤ file.length then .ok (slice file at_ n)
  else .error (.format "the file ends early")

/-- The numbers of a header. -/
structure Head where
  magic : List UInt8
  version : ℕ
  dataLen : ℕ
  tableAt : ℕ
  tableLen : ℕ
  tableCrc : ℕ
  headCrc : ℕ
  deriving DecidableEq, Repr

def head : Reader Head := do
  let magic ← take 8
  let version ← int 8
  let dataLen ← int 8
  let tableAt ← int 8
  let tableLen ← int 8
  let tableCrc ← int 4
  let headCrc ← int 4
  return ⟨magic, version, dataLen, tableAt, tableLen, tableCrc, headCrc⟩

/-- The checks of a header `h` that was read from `bytes`, for a file of `size` bytes. -/
def headFailure (bytes : List UInt8) (h : Head) (size : ℕ) : Option String :=
  firstFailure [
    (h.magic = MAGIC, "not a .wpk file"),
    ((crc32c 0 (bytes.take (HEADER - 4))).toNat = h.headCrc, "the header is corrupt"),
    (h.version % 2 ^ 32 = VERSION, "unsupported version"),
    -- This sum is of 64 bits and wraps.
    (h.dataLen % ALIGN = 0 && h.tableAt = (ALIGN + h.dataLen) % 2 ^ 64, "the data region is malformed"),
    (h.tableAt + h.tableLen < 2 ^ 64 && h.tableAt + h.tableLen ≤ size, "the file is truncated")]

/-- The tensors and the length of the data of an open file. -/
def index (file : List UInt8) : Except Error (List Tensor × ℕ) := do
  let bytes ← readExactAt file HEADER 0
  let h := (head ⟨bytes, false⟩).1
  match headFailure bytes h file.length with
  | some why => .error (.format why)
  | none =>
    let table ← readExactAt file h.tableLen h.tableAt
    if (crc32c 0 table).toNat ≠ h.tableCrc then .error (.format "the tensor table is corrupt")
    else
      let (tensors, c) := decodeAll lossy h.dataLen (h.version / 2 ^ 32) ⟨table, false⟩
      let tensors ← tensors
      if c.rest.isEmpty then .ok (tensors, h.dataLen)
      else .error (.format "the tensor table has trailing bytes")

/-! ## Verification -/

/-- The CRC of `len` bytes of the file, read at most `CHUNK` at a time. -/
def crcOf (file : List UInt8) : ℕ → ℕ → ℕ → UInt32 → Except Error UInt32
  | 0, _, _, crc => .ok crc
  | fuel + 1, at_, len, crc =>
    if len = 0 then .ok crc
    else do
      let part ← readExactAt file (min CHUNK len) at_
      crcOf file fuel (at_ + CHUNK) (len - CHUNK) (crc32c crc part)

def verifyOne (file : List UInt8) (t : Tensor) : Except Error Unit := do
  let crc ← crcOf file (t.len + 1) (ALIGN + t.offset) t.len 0
  if crc ≠ t.crc then .error (.tensor t.name "its bytes do not match their checksum") else .ok ()

def verify (file : List UInt8) (tensors : List Tensor) : Except Error Unit :=
  tensors.forM (verifyOne file)

/-! ## Writing -/

/-- The largest offset a file has. -/
def MAX_FILE : ℕ := 2 ^ 63 - 1

def writeAllAt (file : List UInt8) (at_ : ℕ) (bs : List UInt8) : Except Error (List UInt8) :=
  if ¬bs.isEmpty ∧ MAX_FILE < at_ + bs.length then .error .io else .ok (put file at_ bs)

structure Writer where
  file : List UInt8
  tensors : List Tensor
  dataLen : ℕ
  deriving DecidableEq, Repr

namespace Writer

def create : Writer := ⟨[], [], 0⟩

def nextMultipleOf (n m : ℕ) : ℕ := (n + (m - 1)) / m * m

def add (w : Writer) (name : String) (dtype : Dtype) (shape : List ℕ) (bytes : List UInt8) :
    Except Error Writer :=
  if bytesOf dtype shape ≠ some bytes.length ∨ MAX_RANK < shape.length ∨
      2 ^ 16 ≤ (utf8 name).length then
    .error (.tensor name "its bytes, type and shape do not agree")
  else do
    let file ← writeAllAt w.file (ALIGN + w.dataLen) bytes
    .ok ⟨file, w.tensors ++ [⟨name, dtype, shape, w.dataLen, bytes.length, crc32c 0 bytes⟩],
      nextMultipleOf (w.dataLen + bytes.length) ALIGN⟩

/-- The file once the table and the header are written. -/
def finish (w : Writer) : Except Error (List UInt8) := do
  let table := encode w.tensors
  let file ← writeAllAt w.file (ALIGN + w.dataLen) table
  writeAllAt file 0 (header w.tensors.length w.dataLen table)

end Writer

end Chatlink.Wpk
