import Chatlink.Lib.Codec

/-!
# The messages, as SBE lays them out

A header, the fixed block, the groups, then the variable-length data, all little-endian.
A reader refuses whatever runs past the end of the bytes; `none` is a malformed message.
Counts and block lengths are written as `u16` and text lengths as `u32`, cut to their width
as the casts of the program cut them.
-/
namespace Chatlink.Serve

open Codec

/-- The schema's id and version, in every header. -/
def SCHEMA : ℕ := 7
def VERSION : ℕ := 1

/-- Bytes in the data area: offset and length. -/
structure Blob where
  offset : UInt64
  length : UInt64
  deriving DecidableEq, Repr

/-- A single-precision number, by its bits. -/
structure F32 where
  bits : UInt32
  deriving DecidableEq, Repr

/-! ### Reading -/

def u16At (b : List UInt8) (i : ℕ) : ℕ := ofLe ((b.drop i).take 2)
def u32At (b : List UInt8) (i : ℕ) : ℕ := ofLe ((b.drop i).take 4)

/-- A fixed block: fields at their offsets, a missing field refused. -/
abbrev Block := List UInt8

namespace Block

def u8 (b : Block) (i : ℕ) : Option UInt8 := (field b i 1).map UInt8.ofNat
def u32 (b : Block) (i : ℕ) : Option UInt32 := (field b i 4).map UInt32.ofNat
def u64 (b : Block) (i : ℕ) : Option UInt64 := (field b i 8).map UInt64.ofNat
def f32 (b : Block) (i : ℕ) : Option F32 := (b.u32 i).map F32.mk

def blob (b : Block) (i : ℕ) : Option Blob := do
  let offset ← b.u64 i
  let length ← b.u64 (i + 8)
  pure { offset, length }

end Block

namespace Reader

/-- The template id and the fixed block of the message at the start of the bytes. -/
def open_ : Reading (ℕ × Block) := do
  let head ← take 8
  if u16At head 4 = SCHEMA then
    let block ← take (u16At head 0)
    pure (u16At head 2, block)
  else ofOption none

/-- A group's header: its entries' block length and their count. -/
def group : Reading (ℕ × ℕ) := do
  let h ← take 4
  pure (u16At h 0, u16At h 2)

/-- The next entry's fixed block of a group whose entries take `len` bytes. -/
def entry (len : ℕ) : Reading Block := take len

def fromUtf8 (bs : List UInt8) : Option String := String.fromUTF8? ⟨bs.toArray⟩

/-- The next variable-length data, as text. -/
def text : Reading String := do
  let n ← take 4
  let bs ← take (u32At n 0)
  ofOption (fromUtf8 bs)

end Reader

/-! ### Writing -/

/-- A fixed block built field by field, in the schema's order. -/
abbrev Fields := List UInt8

namespace Fields

def u64 (f : Fields) (v : UInt64) : Fields := f ++ le 8 v.toNat
def u32 (f : Fields) (v : UInt32) : Fields := f ++ le 4 v.toNat
def u16 (f : Fields) (v : UInt16) : Fields := f ++ le 2 v.toNat
def u8 (f : Fields) (v : UInt8) : Fields := f ++ le 1 v.toNat

end Fields

/-- A message being written: header and block first, then groups and data. -/
abbrev Writer := List UInt8

namespace Writer

def new (template : UInt16) (block : List UInt8) : Writer :=
  [block.length, template.toNat, SCHEMA, VERSION].flatMap (le 2) ++ block

/-- A group of `count` entries of `len` bytes each, to be written next. -/
def group (w : Writer) (len count : ℕ) : Writer := w ++ (le 2 len ++ le 2 count)

def bytes (w : Writer) (b : List UInt8) : Writer := w ++ b

def utf8 (t : String) : List UInt8 := t.toByteArray.data.toList

def text (w : Writer) (t : String) : Writer := w ++ (le 4 (utf8 t).length ++ utf8 t)

end Writer

/-! ### What is written reads back -/

section

open Writer

theorem fromUtf8_utf8 (t : String) : Reader.fromUtf8 (utf8 t) = some t := by
  have h : (⟨(utf8 t).toArray⟩ : ByteArray) = t.toByteArray := by simp [utf8]
  simp only [Reader.fromUtf8, String.fromUTF8?, h]
  rw [dif_pos t.isValidUTF8]
  rfl

theorem u16At_append {before after : List UInt8} {i n : ℕ} (h : before.length = i) :
    u16At (before ++ (le 2 n ++ after)) i = n % 65536 := by
  subst h
  exact ofLe_at before after 2 n

theorem u32At_le (n : ℕ) : u32At (le 4 n) 0 = n % 2 ^ 32 := by
  have h := ofLe_at [] [] 4 n
  rwa [List.append_nil] at h

theorem u64_layOut {fs : List (ℕ × ℕ)} {k : ℕ} {v : UInt64} (h : fs[k]? = some (8, v.toNat)) :
    Block.u64 (layOut fs) (offset fs k) = some v := by
  rw [Block.u64, field_layOut h v.toNat_lt]
  simp

theorem u32_layOut {fs : List (ℕ × ℕ)} {k : ℕ} {v : UInt32} (h : fs[k]? = some (4, v.toNat)) :
    Block.u32 (layOut fs) (offset fs k) = some v := by
  rw [Block.u32, field_layOut h v.toNat_lt]
  simp

theorem u8_layOut {fs : List (ℕ × ℕ)} {k : ℕ} {v : UInt8} (h : fs[k]? = some (1, v.toNat)) :
    Block.u8 (layOut fs) (offset fs k) = some v := by
  rw [Block.u8, field_layOut h v.toNat_lt]
  simp

theorem reads_open (template : UInt16) {block : List UInt8} (h : block.length < 65536) :
    Reads Reader.open_ (new template block) (template.toNat, block) := by
  obtain ⟨head, hhead⟩ : ∃ head : List UInt8,
      head = [block.length, template.toNat, SCHEMA, VERSION].flatMap (le 2) := ⟨_, rfl⟩
  have hlength : u16At head 0 = block.length := by
    rw [hhead, List.flatMap_cons]
    exact (@u16At_append [] _ _ _ rfl).trans (Nat.mod_eq_of_lt h)
  have htemplate : u16At head 2 = template.toNat := by
    rw [hhead, List.flatMap_cons, List.flatMap_cons]
    exact (u16At_append (length_le 2 _)).trans (Nat.mod_eq_of_lt template.toNat_lt)
  have hschema : u16At head 4 = SCHEMA := by
    have h4 : (le 2 block.length ++ le 2 template.toNat).length = 4 := by simp
    rw [hhead]
    simp only [List.flatMap_cons, ← List.append_assoc]
    rw [List.append_assoc (le 2 block.length ++ le 2 template.toNat)]
    exact u16At_append h4
  have hnew : new template block = head ++ block := by rw [hhead, new]
  rw [hnew]
  refine reads_bind (reads_take_of_length (by simp [hhead])) ?_
  rw [if_pos hschema, hlength, htemplate]
  exact reads_bind_pure (reads_take block) fun b => (template.toNat, b)

/-- A group's header reads back cut to 16 bits. -/
theorem reads_group (len count : ℕ) :
    Reads Reader.group (le 2 len ++ le 2 count) (len % 65536, count % 65536) := by
  have hlen : u16At (le 2 len ++ le 2 count) 0 = len % 65536 :=
    @u16At_append [] _ _ _ rfl
  have hcount : u16At (le 2 len ++ (le 2 count ++ [])) 2 = count % 65536 :=
    u16At_append (length_le 2 len)
  rw [List.append_nil] at hcount
  rw [← hlen, ← hcount]
  exact reads_bind_pure (reads_take_of_length (by simp)) fun h => (u16At h 0, u16At h 2)

theorem reads_text {t : String} (h : (utf8 t).length < 2 ^ 32) :
    Reads Reader.text (le 4 (utf8 t).length ++ utf8 t) t := by
  refine reads_bind (reads_take_of_length (length_le 4 _)) ?_
  rw [u32At_le, Nat.mod_eq_of_lt h]
  refine reads_bind_last (reads_take (utf8 t)) ?_
  exact reads_ofOption (fromUtf8_utf8 t)

end

end Chatlink.Serve
