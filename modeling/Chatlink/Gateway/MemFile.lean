import Chatlink.Lib.Files
import Chatlink.Lib.FrameRing

/-!
# A file in memory

Media is downloaded into an array that stands for a file. The array may be longer than the file: what `Truncate` cuts
off stays behind the end, and growing inside the array brings it back. As long as no growth does, the array is the file
it stands for.
-/
namespace Chatlink.Gateway

open FrameRing (Memory)

/-- The array, how much of it is the file, how much there is, and where the file is at. -/
structure InMemoryFile where
  mem : Memory
  len : ℕ
  cap : ℕ
  pos : ℕ

inductive FileOp where
  | write (p : List UInt8)
  | writeAt (p : List UInt8) (off : ℕ)
  | read (n : ℕ)
  | readAt (n off : ℕ)
  | seek (offset : ℤ) (whence : ℕ)
  | truncate (size : ℤ)
  deriving DecidableEq

/-- An operation that cuts nothing off and does not write nothing. -/
def FileOp.Keeps : FileOp → Prop
  | .write p => p ≠ []
  | .writeAt p _ => p ≠ []
  | .truncate _ => False
  | _ => True

/-- What an operation returns. Reading tells whether it also returns `io.EOF`. -/
inductive FileResult where
  | count (n : ℕ)
  | bytes (bs : List UInt8) (eof : Bool)
  | position (p : ℕ)
  | done
  | error (text : String)
  deriving DecidableEq

/-- Where `Seek` goes. A sum past the range of `int64` is negative. -/
def seekTo (pos len : ℕ) (offset : ℤ) : ℕ → FileResult ⊕ ℕ
  | 0 => target offset
  | 1 => target (pos + offset)
  | 2 => target (len + offset)
  | _ => .inl (.error "invalid whence")
where
  target (newPos : ℤ) : FileResult ⊕ ℕ :=
    if newPos < 0 ∨ 2 ^ 63 ≤ newPos then .inl (.error "negative position") else .inr newPos.toNat

namespace InMemoryFile

def new : InMemoryFile := ⟨fun _ => 0, 0, 512 * 1024, 0⟩

def data (f : InMemoryFile) : List UInt8 := FrameRing.slice f.mem 0 f.len

/-- A new array with the file's bytes at its beginning. -/
def renew (f : InMemoryFile) (size cap : ℕ) : InMemoryFile :=
  { f with mem := fun j => if j < f.len then f.mem j else 0, len := size, cap := cap }

/-- Room for a write up to `newSize`. Twice a size past the range of `int64` panics. -/
def grow (f : InMemoryFile) (newSize : ℕ) : Option InMemoryFile :=
  if newSize ≤ f.len then some f
  else if newSize ≤ f.cap then some { f with len := newSize }
  else if newSize * 2 < 2 ^ 63 then some (f.renew newSize (newSize * 2))
  else none

/-- `p` over the bytes from `off` on, in an array with room for it. -/
def copyAt (f : InMemoryFile) (off : ℕ) (p : List UInt8) : InMemoryFile := { f with mem := FrameRing.put f.mem off p }

def step (f : InMemoryFile) : FileOp → Option (InMemoryFile × FileResult)
  | .write p => (f.grow (f.pos + p.length)).map fun g =>
    ({ g.copyAt f.pos p with pos := f.pos + p.length }, .count p.length)
  | .writeAt p off => (f.grow (off + p.length)).map fun g => (g.copyAt off p, .count p.length)
  | .read n =>
    if f.len ≤ f.pos then some (f, .bytes [] true)
    else
      let bs := (f.data.drop f.pos).take n
      some ({ f with pos := f.pos + bs.length }, .bytes bs false)
  | .readAt n off =>
    if f.len ≤ off then some (f, .bytes [] true)
    else
      let bs := (f.data.drop off).take n
      some (f, .bytes bs (bs.length < n))
  | .seek offset whence =>
    match seekTo f.pos f.len offset whence with
    | .inl err => some (f, err)
    | .inr newPos => some ({ f with pos := newPos }, .position newPos)
  | .truncate size =>
    if size < 0 then some (f, .error "negative size")
    else if f.cap < size.toNat then some (f.renew size.toNat size.toNat, .done)
    else some ({ f with len := size.toNat }, .done)

end InMemoryFile

/-! ## A plain file -/

/-- What a file is: its bytes and where it is at. -/
structure PlainFile where
  content : List UInt8
  pos : ℕ
  deriving DecidableEq

/-- Reads do not go over the end, writes and a longer size fill up with zeros. -/
def PlainFile.step (f : PlainFile) : FileOp → PlainFile × FileResult
  | .write p => (⟨Files.put f.content f.pos p, f.pos + p.length⟩, .count p.length)
  | .writeAt p off => (⟨Files.put f.content off p, f.pos⟩, .count p.length)
  | .read n =>
    let bs := Files.slice f.content f.pos n
    (⟨f.content, f.pos + bs.length⟩, .bytes bs (f.content.length ≤ f.pos))
  | .readAt n off =>
    let bs := Files.slice f.content off n
    (f, .bytes bs (f.content.length ≤ off || bs.length < n))
  | .seek offset whence =>
    match seekTo f.pos f.content.length offset whence with
    | .inl err => (f, err)
    | .inr newPos => (⟨f.content, newPos⟩, .position newPos)
  | .truncate size =>
    if size < 0 then (f, .error "negative size")
    else (⟨f.content.take size.toNat ++ List.replicate (size.toNat - f.content.length) 0, f.pos⟩, .done)

namespace InMemoryFile

/-- The file an array stands for. -/
def plain (f : InMemoryFile) : PlainFile := ⟨f.data, f.pos⟩

/-- Growing to `newSize` inside the array brings back nothing before `upto`. -/
def Blank (f : InMemoryFile) (upto newSize : ℕ) : Prop :=
  newSize ≤ f.cap → ∀ j < upto, f.len ≤ j → f.mem j = 0

/-- What lies behind the end and before what an operation writes is zero. Writing nothing behind the end would grow
the array, and no file. -/
def Clean (f : InMemoryFile) : FileOp → Prop
  | .write p => (p ≠ [] ∨ f.pos ≤ f.len) ∧ f.Blank f.pos (f.pos + p.length)
  | .writeAt p off => (p ≠ [] ∨ off ≤ f.len) ∧ f.Blank off (off + p.length)
  | .truncate size => f.Blank size.toNat size.toNat
  | _ => True

/-! ## One operation -/

section

variable {f g : InMemoryFile} {p : List UInt8} {off newSize : ℕ}

@[simp] theorem length_data (f : InMemoryFile) : f.data.length = f.len := FrameRing.length_slice _ _ _

theorem getElem?_data (f : InMemoryFile) (j : ℕ) : f.data[j]? = if j < f.len then some (f.mem j) else none := by
  split_ifs with h
  · have hj : j < f.data.length := by rwa [length_data]
    rw [List.getElem?_eq_getElem hj]
    simp [data, FrameRing.slice]
  · exact List.getElem?_eq_none (by rw [length_data]; omega)

/-- After room is made, the bytes of the file are as they were, and those behind them are zero or come back. -/
theorem grow_mem (h : f.grow newSize = some g) {j : ℕ} (hj : j < g.len) :
    g.mem j = if newSize ≤ f.cap ∨ j < f.len then f.mem j else 0 := by
  rw [grow] at h
  split_ifs at h with hlen hcap hint
  · obtain rfl := Option.some.inj h
    rw [if_pos (.inr hj)]
  · obtain rfl := Option.some.inj h
    rw [if_pos (.inl hcap)]
  · obtain rfl := Option.some.inj h
    simp only [renew, hcap, false_or]

theorem grow_len (h : f.grow newSize = some g) : g.len = max f.len newSize ∧ g.pos = f.pos := by
  rw [grow] at h
  split_ifs at h with hlen hcap hint <;> obtain rfl := Option.some.inj h
  · exact ⟨(Nat.max_eq_left hlen).symm, rfl⟩
  · exact ⟨(Nat.max_eq_right (not_le.mp hlen).le).symm, rfl⟩
  · exact ⟨(Nat.max_eq_right (not_le.mp hlen).le).symm, rfl⟩

theorem getElem?_put_mid {file : List UInt8} {j : ℕ} (hj : off ≤ j) (hj' : j < off + p.length) :
    (Files.put file off p)[j]? = p[j - off]? := by
  have hself : Files.slice (Files.put file off p) off p.length = p := Files.slice_put_self
  have hslice := congrArg (·[j - off]?) hself
  simp only [Files.getElem?_slice, if_pos (show j - off < p.length by omega), Nat.add_sub_cancel' hj] at hslice
  exact hslice

/-- The bytes after a write of something, one by one. -/
theorem getElem?_copyAt (h : f.grow (off + p.length) = some g) (hp : p ≠ []) {j : ℕ}
    (hj : j < off → f.len ≤ j → off + p.length ≤ f.cap → f.mem j = 0) :
    (g.copyAt off p).data[j]? = (Files.put f.data off p)[j]? := by
  have hpos := List.length_pos_of_ne_nil hp
  obtain ⟨hlen, -⟩ := grow_len h
  have hcopy : (g.copyAt off p).len = g.len := rfl
  rw [getElem?_data, hcopy]
  rcases Nat.lt_or_ge j off with hbefore | hafter
  · have hmem : (g.copyAt off p).mem j = g.mem j := FrameRing.put_of_lt (.inl hbefore)
    rw [if_pos (by omega), hmem, grow_mem h (by omega)]
    rcases Nat.lt_or_ge j f.len with hin | hout
    · rw [if_pos (.inr hin), Files.getElem?_put_of_lt (by rwa [length_data]) hbefore, getElem?_data, if_pos hin]
    · rw [Files.getElem?_put_gap hp (by rwa [length_data]) hbefore]
      split_ifs with hcap
      · rw [hj hbefore hout (by omega)]
      · rfl
  · rcases Nat.lt_or_ge j (off + p.length) with hmid | hend
    · have hmem : (g.copyAt off p).mem j = p.getD (j - off) 0 := if_pos ⟨hafter, hmid⟩
      have hindex : j - off < p.length := by omega
      rw [if_pos (by omega), hmem, getElem?_put_mid hafter hmid, List.getD_eq_getElem _ _ hindex,
        List.getElem?_eq_getElem hindex]
    · have hmem : (g.copyAt off p).mem j = g.mem j := FrameRing.put_of_lt (.inr hend)
      rw [Files.getElem?_put_of_ge hend, getElem?_data, hmem]
      split_ifs with hg hf hf
      · rw [grow_mem h hg, if_pos (.inr hf)]
      · omega
      · omega
      · rfl

/-- A write is one into the plain file exactly where it brings nothing back and does not grow the file by nothing. -/
theorem copyAt_data (h : f.grow (off + p.length) = some g) :
    (g.copyAt off p).data = Files.put f.data off p ↔
      (p ≠ [] ∨ off ≤ f.len) ∧ f.Blank off (off + p.length) := by
  obtain ⟨hlen, -⟩ := grow_len h
  constructor
  · intro heq
    rcases eq_or_ne p [] with rfl | hp
    · have hle : max f.len (off + 0) = f.len := by
        have hlength := congrArg List.length heq
        rw [Files.put_nil, length_data, length_data] at hlength
        exact hlen.symm.trans hlength
      exact ⟨.inr (by omega), fun _ j hj hout => absurd hj (by omega)⟩
    · refine ⟨.inl hp, fun hcap j hj hout => ?_⟩
      have hbyte : (g.copyAt off p).data[j]? = some 0 := by
        rw [heq, Files.getElem?_put_gap hp (by rwa [length_data]) hj]
      have hmem : (g.copyAt off p).mem j = g.mem j := FrameRing.put_of_lt (.inl hj)
      have hin : j < g.len := by omega
      rw [getElem?_data, if_pos (show j < (g.copyAt off p).len from hin), hmem, grow_mem h hin, if_pos (.inl hcap)] at hbyte
      exact Option.some.inj hbyte
  · rintro ⟨hempty, hblank⟩
    rcases eq_or_ne p [] with rfl | hp
    · have hle : off + ([] : List UInt8).length ≤ f.len := hempty.resolve_left (fun hne => hne rfl)
      rw [grow, if_pos hle] at h
      obtain rfl := Option.some.inj h
      rw [Files.put_nil]
      exact FrameRing.slice_congr fun k _ => FrameRing.put_of_lt (by simp only [List.length_nil]; omega)
    · apply List.ext_getElem?
      intro j
      exact getElem?_copyAt h hp fun hbefore hout hcap => hblank hcap j hbefore hout

/-- What a new size leaves of a plain file, byte by byte. -/
theorem getElem?_resized (f : InMemoryFile) (size j : ℕ) :
    (f.data.take size ++ List.replicate (size - f.data.length) 0)[j]? =
      if j < size then some (if j < f.len then f.mem j else 0) else none := by
  rcases Nat.lt_or_ge j (f.data.take size).length with hin | hout
  · rw [List.getElem?_append_left hin]
    rw [List.length_take, length_data] at hin
    rw [List.getElem?_take_of_lt (by omega), getElem?_data, if_pos (by omega), if_pos (by omega), if_pos (by omega)]
  · rw [List.getElem?_append_right hout]
    rw [List.length_take, length_data] at hout ⊢
    rw [List.getElem?_replicate]
    split_ifs <;> first | rfl | omega

theorem renew_data (f : InMemoryFile) (size cap : ℕ) :
    (f.renew size cap).data = f.data.take size ++ List.replicate (size - f.data.length) 0 := by
  apply List.ext_getElem?
  intro j
  rw [getElem?_data, getElem?_resized]
  rfl

/-- A new size inside the array is that of the plain file exactly where it brings nothing back. -/
theorem resized_data {size : ℕ} (hcap : size ≤ f.cap) :
    ({ f with len := size } : InMemoryFile).data = f.data.take size ++ List.replicate (size - f.data.length) 0 ↔
      f.Blank size size := by
  constructor
  · intro heq _ j hj hout
    have hbyte := congrArg (·[j]?) heq
    simp only [getElem?_data, getElem?_resized, if_pos hj, if_neg (Nat.not_lt.mpr hout)] at hbyte
    exact Option.some.inj hbyte
  · intro hblank
    apply List.ext_getElem?
    intro j
    rw [getElem?_data, getElem?_resized]
    split_ifs with hj hin
    · rfl
    · exact congrArg some (hblank hcap j hj (Nat.not_lt.mp hin))
    · rfl

/-- A clean operation does what it does to the plain file. -/
theorem step_clean {op : FileOp} {f' : InMemoryFile} {r : FileResult} (h : f.step op = some (f', r)) (hc : f.Clean op) :
    f.plain.step op = (f'.plain, r) := by
  cases op with
  | write p =>
    obtain ⟨g, hg, hw⟩ := Option.map_eq_some_iff.mp h
    obtain ⟨rfl, rfl⟩ := Prod.mk.inj hw
    have hdata := (copyAt_data hg).mpr hc
    rw [PlainFile.step, plain, ← hdata]
    rfl
  | writeAt p off =>
    obtain ⟨g, hg, hw⟩ := Option.map_eq_some_iff.mp h
    obtain ⟨rfl, rfl⟩ := Prod.mk.inj hw
    have hdata := (copyAt_data hg).mpr hc
    have hpos : (g.copyAt off p).pos = f.pos := (grow_len hg).2
    rw [PlainFile.step, plain, plain, hdata, hpos]
  | read n =>
    rw [step] at h
    split_ifs at h with hend <;> obtain ⟨rfl, rfl⟩ := Prod.mk.inj (Option.some.inj h)
    · have hnone : Files.slice f.data f.pos n = [] := by
        rw [Files.slice, List.drop_eq_nil_of_le (by rwa [length_data]), List.take_nil]
      simp only [PlainFile.step, plain, hnone, length_data, hend, List.length_nil, Nat.add_zero, decide_true]
    · simp only [PlainFile.step, plain, Files.slice, length_data, hend, decide_false]
      rfl
  | readAt n off =>
    rw [step] at h
    split_ifs at h with hend <;> obtain ⟨rfl, rfl⟩ := Prod.mk.inj (Option.some.inj h)
    · have hnone : Files.slice f.data off n = [] := by
        rw [Files.slice, List.drop_eq_nil_of_le (by rwa [length_data]), List.take_nil]
      simp only [PlainFile.step, plain, hnone, length_data, hend, decide_true, Bool.true_or]
    · simp only [PlainFile.step, plain, Files.slice, length_data, hend, decide_false, Bool.false_or]
      rfl
  | seek offset whence =>
    rw [step] at h
    rw [PlainFile.step]
    have hlen : f.plain.content.length = f.len := length_data f
    rw [hlen]
    cases hto : seekTo f.pos f.len offset whence with
    | inl err =>
      rw [hto] at h
      obtain ⟨rfl, rfl⟩ := Prod.mk.inj (Option.some.inj h)
      simp only [plain, hto]
    | inr newPos =>
      rw [hto] at h
      obtain ⟨rfl, rfl⟩ := Prod.mk.inj (Option.some.inj h)
      simp only [plain, hto]
      rfl
  | truncate size =>
    rw [step] at h
    rw [PlainFile.step]
    split_ifs at h ⊢ with hneg hcap <;> obtain ⟨rfl, rfl⟩ := Prod.mk.inj (Option.some.inj h)
    · rfl
    · rw [plain, plain, renew_data]
      rfl
    · rw [plain, plain, (resized_data (Nat.not_lt.mp hcap)).mpr hc]

/-- An operation that leaves the plain file's bytes is clean. -/
theorem clean_of_data {op : FileOp} {f' : InMemoryFile} {r : FileResult} (h : f.step op = some (f', r))
    (hd : f'.data = (f.plain.step op).1.content) : f.Clean op := by
  cases op with
  | write p =>
    obtain ⟨g, hg, hw⟩ := Option.map_eq_some_iff.mp h
    obtain ⟨rfl, -⟩ := Prod.mk.inj hw
    exact (copyAt_data hg).mp hd
  | writeAt p off =>
    obtain ⟨g, hg, hw⟩ := Option.map_eq_some_iff.mp h
    obtain ⟨rfl, -⟩ := Prod.mk.inj hw
    exact (copyAt_data hg).mp hd
  | read n => trivial
  | readAt n off => trivial
  | seek offset whence => trivial
  | truncate size =>
    rw [step] at h
    rw [PlainFile.step] at hd
    split_ifs at h hd with hneg hcap <;> obtain ⟨rfl, -⟩ := Prod.mk.inj (Option.some.inj h)
    · intro _ j hj
      exact absurd hj (by omega)
    · intro hle
      exact absurd hcap (Nat.not_lt.mpr hle)
    · exact (resized_data (Nat.not_lt.mp hcap)).mp hd

end

/-! ## Runs -/

/-- What each operation returns, and the bytes after it, unless one panics. -/
def run (f : InMemoryFile) : List FileOp → Option (List (FileResult × List UInt8))
  | [] => some []
  | op :: ops =>
    match f.step op with
    | none => none
    | some (f', r) => (run f' ops).map ((r, f'.data) :: ·)

/-- No operation of a run brings anything back. -/
def CleanRun (f : InMemoryFile) : List FileOp → Prop
  | [] => True
  | op :: ops => ∀ f' r, f.step op = some (f', r) → f.Clean op ∧ CleanRun f' ops

end InMemoryFile

def PlainFile.run (f : PlainFile) : List FileOp → List (FileResult × List UInt8)
  | [] => []
  | op :: ops => ((f.step op).2, (f.step op).1.content) :: PlainFile.run (f.step op).1 ops

namespace InMemoryFile

/-- A run is that of the plain file exactly where no operation brings anything back. -/
theorem run_plain {f : InMemoryFile} {ops : List FileOp} {outs : List (FileResult × List UInt8)}
    (h : f.run ops = some outs) : outs = f.plain.run ops ↔ f.CleanRun ops := by
  induction ops generalizing f outs with
  | nil =>
    obtain rfl := Option.some.inj h
    exact iff_of_true rfl trivial
  | cons op ops ih =>
    rw [run] at h
    split at h
    · exact absurd h.symm (Option.some_ne_none _)
    · rename_i f' r hstep
      obtain ⟨rest, hrest, rfl⟩ := Option.map_eq_some_iff.mp h
      rw [PlainFile.run, CleanRun, List.cons.injEq, Prod.mk.injEq]
      constructor
      · rintro ⟨⟨hr, hd⟩, hout⟩
        have hclean := clean_of_data hstep hd
        rw [step_clean hstep hclean] at hout
        intro f'' r' hstep'
        obtain ⟨rfl, rfl⟩ := Prod.mk.inj (Option.some.inj (hstep.symm.trans hstep'))
        exact ⟨hclean, (ih hrest).mp hout⟩
      · intro hclean
        rw [step_clean hstep (hclean f' r hstep).1]
        exact ⟨⟨rfl, rfl⟩, (ih hrest).mpr (hclean f' r hstep).2⟩

/-! ## Runs that cut nothing off -/

/-- The array holds nothing behind the end. -/
def Fresh (f : InMemoryFile) : Prop := ∀ j, f.len ≤ j → f.mem j = 0

theorem Fresh.copyAt {f g : InMemoryFile} {p : List UInt8} {off : ℕ} (hf : f.Fresh)
    (h : f.grow (off + p.length) = some g) : (g.copyAt off p).Fresh := by
  intro j hj
  obtain ⟨hlen, -⟩ := grow_len h
  have hle : g.len ≤ j := hj
  have hmem : (g.copyAt off p).mem j = g.mem j := FrameRing.put_of_lt (.inr (by omega))
  rw [hmem]
  rw [grow] at h
  split_ifs at h <;> obtain rfl := Option.some.inj h
  · exact hf j (by omega)
  · exact hf j (by omega)
  · exact if_neg (by omega)

theorem Fresh.blank {f : InMemoryFile} (hf : f.Fresh) (upto newSize : ℕ) : f.Blank upto newSize :=
  fun _ j _ hj => hf j hj

/-- As long as nothing is cut off there is nothing to bring back. -/
theorem Fresh.step {f f' : InMemoryFile} {op : FileOp} {r : FileResult} (hf : f.Fresh) (hop : op.Keeps)
    (h : f.step op = some (f', r)) : f.Clean op ∧ f'.Fresh := by
  cases op with
  | write p =>
    obtain ⟨g, hg, hw⟩ := Option.map_eq_some_iff.mp h
    obtain ⟨rfl, -⟩ := Prod.mk.inj hw
    exact ⟨⟨.inl hop, hf.blank _ _⟩, hf.copyAt hg⟩
  | writeAt p off =>
    obtain ⟨g, hg, hw⟩ := Option.map_eq_some_iff.mp h
    obtain ⟨rfl, -⟩ := Prod.mk.inj hw
    exact ⟨⟨.inl hop, hf.blank _ _⟩, hf.copyAt hg⟩
  | read n =>
    rw [InMemoryFile.step] at h
    split_ifs at h <;> obtain ⟨rfl, -⟩ := Prod.mk.inj (Option.some.inj h)
    · exact ⟨trivial, hf⟩
    · exact ⟨trivial, hf⟩
  | readAt n off =>
    rw [InMemoryFile.step] at h
    split_ifs at h <;> obtain ⟨rfl, -⟩ := Prod.mk.inj (Option.some.inj h)
    · exact ⟨trivial, hf⟩
    · exact ⟨trivial, hf⟩
  | seek offset whence =>
    rw [InMemoryFile.step] at h
    split at h <;> obtain ⟨rfl, -⟩ := Prod.mk.inj (Option.some.inj h)
    · exact ⟨trivial, hf⟩
    · exact ⟨trivial, hf⟩
  | truncate size => exact absurd hop id

theorem Fresh.run {f : InMemoryFile} (hf : f.Fresh) {ops : List FileOp} (hops : ∀ op ∈ ops, op.Keeps) :
    f.CleanRun ops := by
  induction ops generalizing f with
  | nil => trivial
  | cons op ops ih =>
    intro f' r hstep
    obtain ⟨hclean, hf'⟩ := hf.step (hops op List.mem_cons_self) hstep
    exact ⟨hclean, ih hf' fun op' h => hops op' (List.mem_cons_of_mem _ h)⟩

/-- A new array is a plain file in exactly the clean runs, and the runs that cut nothing off are clean. -/
theorem memFile_plain (ops : List FileOp) (outs : List (FileResult × List UInt8)) (h : new.run ops = some outs) :
    (outs = PlainFile.run ⟨[], 0⟩ ops ↔ new.CleanRun ops) ∧
      ((∀ op ∈ ops, op.Keeps) → outs = PlainFile.run ⟨[], 0⟩ ops) := by
  have hnew : Fresh new := fun _ _ => rfl
  have hiff : outs = PlainFile.run ⟨[], 0⟩ ops ↔ new.CleanRun ops := run_plain h
  exact ⟨hiff, fun hops => hiff.mpr (hnew.run hops)⟩

/-- A seek past the end and a write there, and the gap reads as zeros. -/
theorem memFile_plain_gap :
    [(FileResult.position 2, []), (.count 1, [0, 0, 7]), (.bytes [0, 0, 7] true, [0, 0, 7])] =
      PlainFile.run ⟨[], 0⟩ [.seek 2 0, .write [7], .readAt 4 0] :=
  (memFile_plain [.seek 2 0, .write [7], .readAt 4 0] _ (by rfl)).2 (by
    simp only [List.forall_mem_cons]
    exact ⟨trivial, List.cons_ne_nil 7 [], trivial, fun _ h => absurd h List.not_mem_nil⟩)

end InMemoryFile

end Chatlink.Gateway
