import Chatlink.Lib.Codec

/-!
# The header of a WAV

A WAV from a pipe has placeholders for the sizes of its RIFF and `data` chunks; both are written anew from the
number of bytes there are. That is right where the samples run to the end of the file. Where anything follows them,
be it another chunk or a byte of padding, a header that was correct is changed.
-/
namespace Chatlink.Media.Wav

open Codec

def RIFF : List UInt8 := [82, 73, 70, 70]
def WAVE : List UInt8 := [87, 65, 86, 69]
def DATA : List UInt8 := [100, 97, 116, 97]

/-- A number that does not fit its four bytes. -/
inductive Error where
  | struct
  deriving DecidableEq, Repr

/-- The `n` bytes from `i` on. -/
def bytesAt (wav : List UInt8) (i n : ℕ) : List UInt8 := (wav.drop i).take n

/-- Writes `v` over the four bytes from `i` on. -/
def packInto (out : List UInt8) (i v : ℕ) : Except Error (List UInt8) :=
  if v < 2 ^ 32 then .ok (out.take i ++ le 4 v ++ out.drop (i + 4)) else .error .struct

/-- Where the first `data` chunk starts, from chunk to chunk. -/
def findData (out : List UInt8) (pos : ℕ) : Option ℕ :=
  if pos + 8 ≤ out.length then
    if bytesAt out pos 4 = DATA then some pos
    else
      let size := ofLe (bytesAt out (pos + 4) 4)
      findData out (pos + (8 + size + size % 2)) -- chunks are word-aligned
  else none
termination_by out.length - pos

/-- Writes the sizes of the RIFF and `data` chunks anew. -/
def finalizeWavHeader (wav : List UInt8) : Except Error (List UInt8) :=
  if wav.length < 44 ∨ bytesAt wav 0 4 ≠ RIFF ∨ bytesAt wav 8 4 ≠ WAVE then .ok wav
  else do
    let out ← packInto wav 4 (wav.length - 8)
    match findData out 12 with
    | some pos => packInto out (pos + 4) (wav.length - (pos + 8))
    | none => pure out

/-! ## Files -/

/-- A chunk, padded to an even length. -/
structure Chunk where
  id : List UInt8
  payload : List UInt8
  pad : List UInt8
  id_length : id.length = 4
  fits : payload.length < 2 ^ 32
  padded : pad.length = payload.length % 2

def Chunk.bytes (c : Chunk) : List UInt8 := c.id ++ le 4 c.payload.length ++ c.payload ++ c.pad

/-- The bytes of a file with these bytes for the size of its RIFF chunk. -/
def riff (size body : List UInt8) : List UInt8 := RIFF ++ size ++ WAVE ++ body

def body (cs : List Chunk) : List UInt8 := cs.flatMap Chunk.bytes

/-- A file of these chunks, its size correct. -/
def file (cs : List Chunk) : List UInt8 := riff (le 4 (4 + (body cs).length)) (body cs)

/-- A file whose `data` chunk comes after the chunks `cs` and runs to the end, with these bytes for the sizes. -/
def open_ (cs : List Chunk) (riffSize dataSize samples : List UInt8) : List UInt8 :=
  riff riffSize (body cs ++ (DATA ++ dataSize ++ samples))

/-- Nothing follows the samples: the first `data` chunk is the last chunk, and needs no padding. -/
def EndsWithData (cs : List Chunk) : Prop :=
  ∀ c after, cs.dropWhile (fun c => c.id ≠ DATA) = c :: after → after = [] ∧ c.payload.length % 2 = 0

theorem length_riff {size : List UInt8} (h : size.length = 4) (body : List UInt8) :
    (riff size body).length = 12 + body.length := by
  simp only [riff, RIFF, WAVE, List.length_append, List.length_cons, List.length_nil, h]

theorem length_bytes (c : Chunk) : c.bytes.length = 8 + c.payload.length + c.payload.length % 2 := by
  simp only [Chunk.bytes, List.length_append, c.id_length, length_le, c.padded]

/-! ## The walk -/

theorem bytesAt_append (before bs after : List UInt8) {i n : ℕ} (hi : i = before.length) (hn : n = bs.length) :
    bytesAt (before ++ (bs ++ after)) i n = bs := by
  rw [bytesAt, hi, hn, List.drop_left, List.take_left]

/-- Behind the last chunk there is none. -/
theorem findData_nil (out : List UInt8) : findData out out.length = none := by
  rw [findData, if_neg (by omega)]

theorem findData_data (before size rest : List UInt8) (h : size.length = 4) :
    findData (before ++ (DATA ++ (size ++ rest))) before.length = some before.length := by
  have hlen : before.length + 8 ≤ (before ++ (DATA ++ (size ++ rest))).length := by
    simp only [List.length_append, h, DATA, List.length_cons, List.length_nil]
    omega
  have hid : bytesAt (before ++ (DATA ++ (size ++ rest))) before.length 4 = DATA := bytesAt_append before DATA _ rfl rfl
  rw [findData, if_pos hlen, hid, if_pos rfl]

/-- A chunk with another name is stepped over. -/
theorem findData_step (before : List UInt8) (c : Chunk) (rest : List UInt8) (h : c.id ≠ DATA) :
    findData (before ++ (c.bytes ++ rest)) before.length = findData (before ++ (c.bytes ++ rest)) (before ++ c.bytes).length := by
  have hid : bytesAt (before ++ (c.bytes ++ rest)) before.length 4 = c.id := by
    rw [Chunk.bytes, List.append_assoc, List.append_assoc, List.append_assoc]
    exact bytesAt_append before c.id _ rfl c.id_length.symm
  have hsize : bytesAt (before ++ (c.bytes ++ rest)) (before.length + 4) 4 = le 4 c.payload.length := by
    have hsplit : before ++ (c.bytes ++ rest) =
        (before ++ c.id) ++ (le 4 c.payload.length ++ (c.payload ++ (c.pad ++ rest))) := by
      simp only [Chunk.bytes, List.append_assoc]
    rw [hsplit]
    exact bytesAt_append _ _ _ (by rw [List.length_append, c.id_length]) (length_le _ _).symm
  have hlen := length_bytes c
  rw [findData, if_pos (by simp only [List.length_append]; omega), hid, if_neg h, hsize,
    ofLe_le_of_lt (by simpa using c.fits)]
  dsimp only
  rw [List.length_append, hlen]

theorem findData_steps (before : List UInt8) (cs : List Chunk) (rest : List UInt8) (h : ∀ c ∈ cs, c.id ≠ DATA) :
    findData (before ++ (body cs ++ rest)) before.length = findData (before ++ (body cs ++ rest)) (before ++ body cs).length := by
  induction cs generalizing before with
  | nil => rw [body, List.flatMap_nil, List.append_nil]
  | cons c cs ih =>
    rw [body, List.flatMap_cons, List.append_assoc, findData_step before c _ (h c List.mem_cons_self)]
    have hrest := ih (before ++ c.bytes) fun d hd => h d (List.mem_cons_of_mem c hd)
    rw [List.append_assoc, List.append_assoc] at hrest
    exact hrest

/-! ## What is written -/

theorem packInto_append {before old after : List UInt8} {i v : ℕ} (hi : i = before.length) (hold : old.length = 4)
    (hv : v < 2 ^ 32) : packInto (before ++ (old ++ after)) i v = .ok (before ++ (le 4 v ++ after)) := by
  have hdrop : (before ++ (old ++ after)).drop (before.length + 4) = after := by
    rw [← hold, ← List.length_append, ← List.append_assoc, List.drop_left]
  rw [packInto, if_pos hv, hi, hdrop, List.take_left, List.append_assoc]

section riff

variable {size : List UInt8} (hsize : size.length = 4) (body : List UInt8)
include hsize

/-- A file with enough bytes for a header gets its RIFF size first. -/
theorem finalize_enough (hmin : 44 ≤ 12 + body.length) :
    finalizeWavHeader (riff size body) = (do
      let out ← packInto (riff size body) 4 (4 + body.length)
      match findData out 12 with
      | some pos => packInto out (pos + 4) (12 + body.length - (pos + 8))
      | none => pure out) := by
  have hlen := length_riff hsize body
  have hriff : bytesAt (riff size body) 0 4 = RIFF := by
    rw [riff, List.append_assoc, List.append_assoc]
    exact bytesAt_append [] RIFF _ rfl rfl
  have hwave : bytesAt (riff size body) 8 4 = WAVE := by
    rw [riff, List.append_assoc]
    exact bytesAt_append (RIFF ++ size) WAVE _ (by rw [List.length_append, hsize]; rfl) rfl
  rw [finalizeWavHeader, if_neg (by rw [hriff, hwave, hlen]; simp; omega), hlen,
    show 12 + body.length - 8 = 4 + body.length by omega]

/-- No more than a size can say. -/
theorem finalize_riff (hmin : 44 ≤ 12 + body.length) (hmax : 4 + body.length < 2 ^ 32) :
    finalizeWavHeader (riff size body) =
      match findData (riff (le 4 (4 + body.length)) body) 12 with
      | some pos => packInto (riff (le 4 (4 + body.length)) body) (pos + 4) (12 + body.length - (pos + 8))
      | none => .ok (riff (le 4 (4 + body.length)) body) := by
  have hpack : packInto (riff size body) 4 (4 + body.length) = .ok (riff (le 4 (4 + body.length)) body) := by
    simp only [riff, List.append_assoc]
    exact packInto_append rfl hsize hmax
  rw [finalize_enough hsize body hmin, hpack]
  rfl

theorem finalize_large (hmax : 2 ^ 32 ≤ 4 + body.length) : finalizeWavHeader (riff size body) = .error .struct := by
  rw [finalize_enough hsize body (by omega), packInto, if_neg (by omega)]
  rfl

end riff

theorem finalize_short {wav : List UInt8} (h : wav.length < 44) : finalizeWavHeader wav = .ok wav := by
  rw [finalizeWavHeader, if_pos (.inl h)]

/-- Where no chunk has the samples, only the RIFF size is written. -/
theorem finalize_none {cs : List Chunk} (h : ∀ c ∈ cs, c.id ≠ DATA) (hmax : 4 + (body cs).length < 2 ^ 32) :
    finalizeWavHeader (file cs) = .ok (file cs) := by
  by_cases hmin : (file cs).length < 44
  · exact finalize_short hmin
  · rw [file, length_riff (length_le _ _)] at hmin
    rw [file, finalize_riff (length_le _ _) _ (by omega) hmax]
    have hwalk := findData_steps (RIFF ++ le 4 (4 + (body cs).length) ++ WAVE) cs [] h
    rw [List.append_nil] at hwalk
    rw [show findData (riff (le 4 (4 + (body cs).length)) (body cs)) 12 = none from hwalk.trans (findData_nil _)]

/-- The `data` size is that of all that follows it. -/
theorem finalize_data {before : List Chunk} (h : ∀ c ∈ before, c.id ≠ DATA) {riffSize dataSize : List UInt8}
    (hriff : riffSize.length = 4) (hdata : dataSize.length = 4) (rest : List UInt8)
    (hmin : 44 ≤ 12 + ((body before).length + (8 + rest.length)))
    (hmax : 4 + ((body before).length + (8 + rest.length)) < 2 ^ 32) :
    finalizeWavHeader (open_ before riffSize dataSize rest) =
      .ok (open_ before (le 4 (4 + ((body before).length + (8 + rest.length)))) (le 4 rest.length) rest) := by
  have hlen : (body before ++ (DATA ++ dataSize ++ rest)).length = (body before).length + (8 + rest.length) := by
    simp only [List.length_append, hdata, DATA, List.length_cons, List.length_nil]
  rw [open_, finalize_riff hriff _ (by omega) (by omega), hlen]
  generalize hsize : le 4 (4 + ((body before).length + (8 + rest.length))) = size
  have hlength : size.length = 4 := hsize ▸ length_le _ _
  have hhead : (RIFF ++ size ++ WAVE).length = 12 := by
    rw [List.length_append, List.length_append, hlength]
    rfl
  have hwalk := findData_steps (RIFF ++ size ++ WAVE) before (DATA ++ dataSize ++ rest) h
  have hfound := findData_data (RIFF ++ size ++ WAVE ++ body before) dataSize rest hdata
  rw [hhead] at hwalk
  have hpos : findData (riff size (body before ++ (DATA ++ dataSize ++ rest))) 12 = some (12 + (body before).length) := by
    rw [← hhead, ← List.length_append, ← hfound, hhead]
    simp only [riff, List.append_assoc] at hwalk ⊢
    exact hwalk
  rw [hpos]
  dsimp only
  have hsplit (d : List UInt8) : riff size (body before ++ (DATA ++ d ++ rest)) =
      (RIFF ++ size ++ WAVE ++ body before ++ DATA) ++ (d ++ rest) := by
    simp only [riff, List.append_assoc]
  rw [open_, hsplit dataSize, hsplit (le 4 rest.length)]
  rw [show 12 + ((body before).length + (8 + rest.length)) - (12 + (body before).length + 8) = rest.length by omega]
  exact packInto_append (by rw [List.length_append, List.length_append, hhead]; rfl) hdata (by omega)

theorem le_inj {m n : ℕ} (hm : m < 2 ^ 32) (hn : n < 2 ^ 32) (h : le 4 m = le 4 n) : m = n := by
  rw [← ofLe_le_of_lt (w := 4) hm, h, ofLe_le_of_lt hn]

theorem open_inj {before : List Chunk} {size dataSize dataSize' rest : List UInt8} (hlen : dataSize.length = dataSize'.length)
    (h : open_ before size dataSize rest = open_ before size dataSize' rest) : dataSize = dataSize' := by
  simp only [open_, riff, List.append_assoc, List.append_cancel_left_eq] at h
  exact (List.append_inj h hlen).1

/-- A correct file is left as it is exactly when nothing follows its samples. -/
theorem finalize_file {cs : List Chunk} (hmax : 4 + (body cs).length < 2 ^ 32) :
    finalizeWavHeader (file cs) = .ok (file cs) ↔ (file cs).length < 44 ∨ EndsWithData cs := by
  by_cases hmin : (file cs).length < 44
  · exact iff_of_true (finalize_short hmin) (.inl hmin)
  rw [or_iff_right hmin]
  rw [file, length_riff (length_le _ _)] at hmin
  have hsplit := List.takeWhile_append_dropWhile (p := fun c : Chunk => c.id ≠ DATA) (l := cs)
  have hbefore : ∀ c ∈ cs.takeWhile (fun c : Chunk => c.id ≠ DATA), c.id ≠ DATA := by
    intro c hc
    simpa using List.mem_takeWhile_imp hc
  cases hdrop : cs.dropWhile fun c => c.id ≠ DATA with
  | nil =>
    rw [hdrop, List.append_nil] at hsplit
    rw [hsplit] at hbefore
    refine iff_of_true (finalize_none hbefore hmax) fun c after h => ?_
    rw [hdrop] at h
    cases h
  | cons c after =>
    have hc : c.id = DATA := by
      have hhead := List.head?_dropWhile_not (fun c : Chunk => decide (c.id ≠ DATA)) cs
      rw [hdrop] at hhead
      simpa using hhead
    generalize htake : cs.takeWhile (fun c : Chunk => c.id ≠ DATA) = before at hsplit hbefore
    rw [hdrop] at hsplit
    have hbody : body cs = body before ++ (DATA ++ le 4 c.payload.length ++ (c.payload ++ c.pad ++ body after)) := by
      simp only [← hsplit, body, List.flatMap_append, List.flatMap_cons, Chunk.bytes, hc, List.append_assoc]
    have hlen : (body cs).length = (body before).length + (8 + (c.payload ++ c.pad ++ body after).length) := by
      rw [hbody]
      simp only [List.length_append, length_le, DATA, List.length_cons, List.length_nil]
    have hfile : file cs = open_ before (le 4 (4 + (body cs).length)) (le 4 c.payload.length)
        (c.payload ++ c.pad ++ body after) := by
      rw [file, open_, ← hbody]
    have hrun := finalize_data hbefore (length_le 4 (4 + (body cs).length)) (length_le 4 c.payload.length)
      (c.payload ++ c.pad ++ body after) (by omega) (by omega)
    rw [← hlen] at hrun
    have hrest : (c.payload ++ c.pad ++ body after).length =
        c.payload.length + (c.payload.length % 2 + (body after).length) := by
      simp only [List.length_append, c.padded]
      omega
    have hnil : (body after).length = 0 ↔ after = [] := by
      cases after with
      | nil => simp [body]
      | cons a after =>
        have := length_bytes a
        simp only [body, List.flatMap_cons, List.length_append, reduceCtorEq, iff_false]
        omega
    rw [hfile, hrun]
    constructor
    · intro h
      have hsize := open_inj (by rw [length_le, length_le]) (Except.ok.inj h)
      have := le_inj (by omega) (by have := c.fits; omega) hsize
      intro c' after' h'
      rw [hdrop] at h'
      cases h'
      exact ⟨hnil.mp (by omega), by omega⟩
    · intro h
      obtain ⟨hafter, heven⟩ := h c after hdrop
      have hzero := hnil.mpr hafter
      rw [show (c.payload ++ c.pad ++ body after).length = c.payload.length by omega]

/-- A file that was written to a pipe gets its sizes. -/
theorem finalize_open {before : List Chunk} (h : ∀ c ∈ before, c.id ≠ DATA) {riffSize dataSize samples : List UInt8}
    (hriff : riffSize.length = 4) (hdata : dataSize.length = 4) (hmin : 44 ≤ (open_ before riffSize dataSize samples).length)
    (hmax : (open_ before riffSize dataSize samples).length - 8 < 2 ^ 32) :
    finalizeWavHeader (open_ before riffSize dataSize samples) =
      .ok (open_ before (le 4 ((open_ before riffSize dataSize samples).length - 8)) (le 4 samples.length) samples) := by
  have hlen : (open_ before riffSize dataSize samples).length = 12 + ((body before).length + (8 + samples.length)) := by
    rw [open_, length_riff hriff]
    simp only [List.length_append, hdata, DATA, List.length_cons, List.length_nil]
  rw [hlen] at hmin hmax ⊢
  rw [finalize_data h hriff hdata samples hmin (by omega),
    show 12 + ((body before).length + (8 + samples.length)) - 8 = 4 + ((body before).length + (8 + samples.length)) by omega]

/-- The repaired file. -/
def repaired (before : List Chunk) (riffSize dataSize samples : List UInt8) : List UInt8 :=
  open_ before (le 4 ((open_ before riffSize dataSize samples).length - 8)) (le 4 samples.length) samples

/-- That is so exactly when the size can be said, but for a file too short for a header, which is left as it is. -/
theorem finalize_open_iff {before : List Chunk} (h : ∀ c ∈ before, c.id ≠ DATA) {riffSize dataSize samples : List UInt8}
    (hriff : riffSize.length = 4) (hdata : dataSize.length = 4) :
    finalizeWavHeader (open_ before riffSize dataSize samples) = .ok (repaired before riffSize dataSize samples) ↔
      (open_ before riffSize dataSize samples).length - 8 < 2 ^ 32 ∧
        (44 ≤ (open_ before riffSize dataSize samples).length ∨
          open_ before riffSize dataSize samples = repaired before riffSize dataSize samples) := by
  by_cases hmin : (open_ before riffSize dataSize samples).length < 44
  · rw [finalize_short hmin, Except.ok.injEq]
    refine ⟨fun heq => ⟨by omega, .inr heq⟩, fun h => h.2.resolve_left (by omega)⟩
  by_cases hmax : (open_ before riffSize dataSize samples).length - 8 < 2 ^ 32
  · exact iff_of_true (finalize_open h hriff hdata (by omega) hmax) ⟨hmax, .inl (by omega)⟩
  · refine iff_of_false ?_ fun h => hmax h.1
    rw [open_, length_riff hriff] at hmax
    rw [open_, finalize_large hriff _ (by omega)]
    exact nofun

/-- Four bytes are written, and no other. -/
theorem packInto_frame {out out' : List UInt8} {i v : ℕ} (h : packInto out i v = .ok out') (hi : i + 4 ≤ out.length) :
    out'.length = out.length ∧ ∀ k, k < i ∨ i + 4 ≤ k → out'[k]? = out[k]? := by
  rw [packInto] at h
  split_ifs at h
  cases h
  have htake : (out.take i).length = i := by rw [List.length_take]; omega
  refine ⟨?_, fun k hk => ?_⟩
  · simp only [List.length_append, length_le, List.length_drop, htake]
    omega
  · rw [List.append_assoc]
    obtain hk | hk := hk
    · rw [List.getElem?_append_left (by omega), List.getElem?_take_of_lt hk]
    · rw [List.getElem?_append_right (by omega), List.getElem?_append_right (by rw [length_le]; omega), List.getElem?_drop,
        length_le, htake]
      congr 1
      omega

theorem findData_bound {out : List UInt8} {start pos : ℕ} (h : findData out start = some pos) : pos + 8 ≤ out.length := by
  rw [findData] at h
  split_ifs at h with hlen hid
  · cases h
    exact hlen
  · exact findData_bound h
termination_by out.length - start

/-- The walk reads nothing before the twelfth byte. -/
theorem findData_congr {out wav : List UInt8} (hlen : out.length = wav.length) (hdrop : out.drop 12 = wav.drop 12) {start : ℕ}
    (hstart : 12 ≤ start) : findData out start = findData wav start := by
  have hbytes (i n : ℕ) (hi : 12 ≤ i) : bytesAt out i n = bytesAt wav i n := by
    obtain ⟨j, rfl⟩ := Nat.exists_eq_add_of_le hi
    rw [bytesAt, bytesAt, ← List.drop_drop, ← List.drop_drop, hdrop]
  rw [findData, findData.eq_def wav, hlen, hbytes start 4 hstart, hbytes (start + 4) 4 (by omega)]
  dsimp only
  split_ifs with hin hid
  · rfl
  · exact findData_congr hlen hdrop (by omega)
  · rfl
termination_by out.length - start

/-- Whatever the bytes are, none but those of the two sizes change. -/
theorem finalize_frame {wav out : List UInt8} (h : finalizeWavHeader wav = .ok out) :
    out.length = wav.length ∧ ∀ k, (k < 4 ∨ 8 ≤ k) →
      (∀ pos, findData wav 12 = some pos → k < pos + 4 ∨ pos + 8 ≤ k) → out[k]? = wav[k]? := by
  rw [finalizeWavHeader] at h
  split_ifs at h with hskip
  · cases h
    exact ⟨rfl, fun _ _ _ => rfl⟩
  · have hmin : 44 ≤ wav.length := by
      rw [not_or] at hskip
      omega
    cases hfirst : packInto wav 4 (wav.length - 8) with
    | error e => rw [hfirst] at h; cases h
    | ok mid =>
      rw [hfirst] at h
      obtain ⟨hlen, hmid⟩ := packInto_frame hfirst (by omega)
      have hdrop : mid.drop 12 = wav.drop 12 := by
        apply List.ext_getElem?
        intro k
        rw [List.getElem?_drop, List.getElem?_drop]
        exact hmid _ (by omega)
      change (match findData mid 12 with
        | some pos => packInto mid (pos + 4) (wav.length - (pos + 8))
        | none => pure mid) = .ok out at h
      rw [findData_congr hlen hdrop le_rfl] at h
      cases hfound : findData wav 12 with
      | none =>
        rw [hfound] at h
        cases h
        exact ⟨hlen, fun k hk _ => hmid k hk⟩
      | some pos =>
        rw [hfound] at h
        have hpos := findData_bound hfound
        obtain ⟨hlen', hout⟩ := packInto_frame h (by omega)
        refine ⟨hlen'.trans hlen, fun k hk hsize => ?_⟩
        rw [hout k (by have := hsize pos rfl; omega), hmid k hk]

/-! ## The whole -/

/-- The header is repaired where samples run to the end, samples stay, and a correct file stays as it is exactly when
nothing follows its samples. -/
theorem header_repaired (cs before : List Chunk) (riffSize dataSize samples wav out : List UInt8) :
    (4 + (body cs).length < 2 ^ 32 →
      (finalizeWavHeader (file cs) = .ok (file cs) ↔ (file cs).length < 44 ∨ EndsWithData cs)) ∧
    ((∀ c ∈ before, c.id ≠ DATA) → riffSize.length = 4 → dataSize.length = 4 →
      (finalizeWavHeader (open_ before riffSize dataSize samples) = .ok (repaired before riffSize dataSize samples) ↔
        (open_ before riffSize dataSize samples).length - 8 < 2 ^ 32 ∧
          (44 ≤ (open_ before riffSize dataSize samples).length ∨
            open_ before riffSize dataSize samples = repaired before riffSize dataSize samples))) ∧
    (finalizeWavHeader wav = .ok out → out.length = wav.length ∧ ∀ k, (k < 4 ∨ 8 ≤ k) →
      (∀ pos, findData wav 12 = some pos → k < pos + 4 ∨ pos + 8 ≤ k) → out[k]? = wav[k]?) :=
  ⟨fun hmax => finalize_file hmax, fun h hriff hdata => finalize_open_iff h hriff hdata, fun h => finalize_frame h⟩

/-- Sixteen bytes of format, two of samples, and a note behind them. -/
def noted : List Chunk :=
  [⟨[102, 109, 116, 32], List.replicate 16 0, [], rfl, by decide, rfl⟩, ⟨DATA, [1, 2], [], rfl, by decide, rfl⟩,
    ⟨[76, 73, 83, 84], [7, 7], [], rfl, by decide, rfl⟩]

theorem header_repaired_noted :
    (finalizeWavHeader (file noted) = .ok (file noted) ↔ (file noted).length < 44 ∨ EndsWithData noted) ∧
    finalizeWavHeader (open_ (noted.take 1) [255, 255, 255, 255] [255, 255, 255, 255] [1, 2]) =
      .ok (repaired (noted.take 1) [255, 255, 255, 255] [255, 255, 255, 255] [1, 2]) ∧
    ∀ out, finalizeWavHeader (file noted) = .ok out → out.length = (file noted).length := by
  have hall := header_repaired noted (noted.take 1) [255, 255, 255, 255] [255, 255, 255, 255] [1, 2] (file noted)
  refine ⟨(hall []).1 (by decide), ?_, fun out h => ((hall out).2.2 h).1⟩
  exact ((hall []).2.1 (by decide) rfl rfl).mpr ⟨by decide, .inl (by decide)⟩

/-- The note's bytes are counted as samples. -/
theorem noted_changed : finalizeWavHeader (file noted) ≠ .ok (file noted) := by
  intro h
  obtain hshort | hends := (finalize_file (by decide)).mp h
  · exact absurd hshort (by decide)
  · obtain ⟨hnil, -⟩ := hends ⟨DATA, [1, 2], [], rfl, by decide, rfl⟩ _ rfl
    cases hnil

end Chatlink.Media.Wav
