import Chatlink.Wpk.ReadBack

/-!
# What a writer leaves

A tensor is added at the end of the data, which then ends at a block. Every addition keeps the
bytes of the earlier ones, and so do the table and the header, so a finished file holds them all.
-/
namespace Chatlink.Wpk

open Codec Files Serve.Writer

variable {lossy : List UInt8 → String} {file : List UInt8} {w w' : Writer}

/-- A tensor as it is handed to the writer; the dimensions are 64-bit numbers. -/
structure Added where
  name : String
  dtype : Dtype
  shape : List ℕ
  bytes : List UInt8
  fits : ∀ n ∈ shape, n < 2 ^ 64

def Writer.addAll (w : Writer) (adds : List Added) : Except Error Writer :=
  adds.foldlM (fun w a => w.add a.name a.dtype a.shape a.bytes) w

/-- The file of a writer to which some tensors are added. -/
def write (adds : List Added) : Except Error (List UInt8) := do
  let w ← Writer.create.addAll adds
  w.finish

/-- A tensor of an index is one that was added, and its bytes are in the file. -/
structure Kept (file : List UInt8) (a : Added) (t : Tensor) : Prop where
  name : t.name = a.name
  dtype : t.dtype = a.dtype
  shape : t.shape = a.shape
  len : t.len = a.bytes.length
  bytes : Holds file (ALIGN + t.offset) a.bytes
  crc : t.crc = crc32c 0 a.bytes

/-- What holds between two calls of a writer. -/
structure Laid (w : Writer) (adds : List Added) : Prop where
  aligned : w.dataLen % ALIGN = 0
  small : w.dataLen ≤ MAX_FILE
  reach : w.file.length ≤ ALIGN + w.dataLen
  max : w.file.length ≤ MAX_FILE
  kept : List.Forall₂ (Kept w.file) adds w.tensors
  valid : ∀ t ∈ w.tensors, t.Valid w.dataLen
  apart : w.tensors.Pairwise fun s t => s.offset + s.len ≤ t.offset
  fresh : w.tensors = [] → w.dataLen = 0

theorem laid_create : Laid Writer.create [] :=
  ⟨rfl, Nat.zero_le _, Nat.zero_le _, Nat.zero_le _, .nil, nofun, .nil, fun _ => rfl⟩

theorem le_nextMultipleOf (n : ℕ) : n ≤ Writer.nextMultipleOf n ALIGN ∧ Writer.nextMultipleOf n ALIGN < n + ALIGN ∧
    Writer.nextMultipleOf n ALIGN % ALIGN = 0 := by
  have hALIGN : ALIGN = 4096 := rfl
  rw [Writer.nextMultipleOf, hALIGN]
  omega

theorem nextMultipleOf_of_aligned {n : ℕ} (h : n % ALIGN = 0) : Writer.nextMultipleOf n ALIGN = n := by
  have hALIGN : ALIGN = 4096 := rfl
  rw [hALIGN] at h ⊢
  rw [Writer.nextMultipleOf]
  omega

theorem Kept.put {a : Added} {t : Tensor} {i : ℕ} {bs : List UInt8} (h : Kept file a t)
    (hd : ALIGN + t.offset + t.len ≤ i ∨ i + bs.length ≤ ALIGN + t.offset) : Kept (put file i bs) a t :=
  { h with bytes := h.bytes.put (h.len ▸ hd) }

/-- A write beside the regions of all tensors keeps their bytes. -/
theorem kept_put {adds : List Added} {ts : List Tensor} {i : ℕ} {bs : List UInt8}
    (h : List.Forall₂ (Kept file) adds ts)
    (hd : ∀ t ∈ ts, ALIGN + t.offset + t.len ≤ i ∨ i + bs.length ≤ ALIGN + t.offset) :
    List.Forall₂ (Kept (put file i bs)) adds ts := by
  induction h with
  | nil => exact .nil
  | cons ht _ ih =>
    obtain ⟨hone, hrest⟩ := List.forall_mem_cons.mp hd
    exact .cons (ht.put hone) (ih hrest)

theorem writeAllAt_ok {file' bs : List UInt8} {i : ℕ} (h : writeAllAt file i bs = .ok file') :
    file' = put file i bs ∧ (bs ≠ [] → i + bs.length ≤ MAX_FILE) := by
  unfold writeAllAt at h
  split_ifs at h with hbig
  refine ⟨(Except.ok.inj h).symm, fun hbs => ?_⟩
  by_contra hlt
  exact hbig ⟨by simpa using hbs, by omega⟩

/-- What a successful addition does. -/
theorem add_ok {name : String} {dtype : Dtype} {shape : List ℕ} {bytes : List UInt8}
    (h : w.add name dtype shape bytes = .ok w') :
    (bytesOf dtype shape = some bytes.length ∧ shape.length ≤ MAX_RANK ∧ (utf8 name).length < 2 ^ 16) ∧
      (bytes ≠ [] → ALIGN + w.dataLen + bytes.length ≤ MAX_FILE) ∧
      w' = ⟨put w.file (ALIGN + w.dataLen) bytes,
        w.tensors ++ [⟨name, dtype, shape, w.dataLen, bytes.length, crc32c 0 bytes⟩],
        Writer.nextMultipleOf (w.dataLen + bytes.length) ALIGN⟩ := by
  unfold Writer.add at h
  split_ifs at h with hbad
  obtain ⟨file', hfile, h⟩ := Lists.bind_eq_ok h
  obtain ⟨rfl, hmax⟩ := writeAllAt_ok hfile
  push Not at hbad
  exact ⟨hbad, hmax, (Except.ok.inj h).symm⟩

/-- One addition. -/
theorem Laid.add {adds : List Added} {a : Added} (h : Laid w adds)
    (hadd : w.add a.name a.dtype a.shape a.bytes = .ok w') : Laid w' (adds ++ [a]) := by
  obtain ⟨⟨hcounted, hrank, hname⟩, hmax, rfl⟩ := add_ok hadd
  obtain ⟨hle, hlt, hblock⟩ := le_nextMultipleOf (w.dataLen + a.bytes.length)
  have hMAX : MAX_FILE < 2 ^ 63 := by decide
  have hsmall := h.small
  have haligned := h.aligned
  have hreach := h.reach
  have hgrow : (put w.file (ALIGN + w.dataLen) a.bytes).length ≤ ALIGN + w.dataLen + a.bytes.length ∧
      (put w.file (ALIGN + w.dataLen) a.bytes).length ≤ MAX_FILE ∧
      Writer.nextMultipleOf (w.dataLen + a.bytes.length) ALIGN ≤ MAX_FILE := by
    by_cases hbytes : a.bytes = []
    · rw [hbytes, put_nil, List.length_nil]
      exact ⟨by omega, h.max, by rw [Nat.add_zero, nextMultipleOf_of_aligned haligned]; exact hsmall⟩
    · have hend := hmax hbytes
      have hlen := @length_put _ _ w.file _ (ALIGN + w.dataLen) hbytes
      have hmax' := h.max
      refine ⟨by omega, by omega, ?_⟩
      have hALIGN : ALIGN = 4096 := rfl
      omega
  have hinside : ∀ t ∈ w.tensors, t.offset + t.len ≤ w.dataLen := fun t ht => (h.valid t ht).inside.2
  refine ⟨hblock, hgrow.2.2, ?_, hgrow.2.1, ?_, ?_, ?_, ?_⟩
  · dsimp only
    omega
  · refine List.rel_append (kept_put h.kept fun t ht => ?_) (.cons ?_ .nil)
    · have hend := hinside t ht
      omega
    · exact ⟨rfl, rfl, rfl, rfl, holds_put, rfl⟩
  · refine List.forall_mem_append.mpr ⟨fun t ht => (h.valid t ht).mono (by dsimp only; omega), ?_⟩
    refine List.forall_mem_singleton.mpr ⟨hname, hrank, a.fits, h.aligned, hcounted, ?_, hle⟩
    dsimp only
    omega
  · refine List.pairwise_append.mpr ⟨h.apart, List.pairwise_singleton _ _, fun s hs t ht => ?_⟩
    obtain rfl := List.mem_singleton.mp ht
    exact hinside s hs
  · simp

theorem Laid.addAll {adds more : List Added} (h : Laid w adds) (hadd : w.addAll more = .ok w') :
    Laid w' (adds ++ more) := by
  induction more generalizing w adds with
  | nil =>
    obtain rfl := Except.ok.inj hadd
    rwa [List.append_nil]
  | cons a more ih =>
    obtain ⟨w₁, hone, hmore⟩ := Lists.bind_eq_ok hadd
    rw [List.append_cons]
    exact ih (h.add hone) hmore

/-- A finished file. -/
theorem Laid.written {adds : List Added} (h : Laid w adds) (hfinish : w.finish = .ok file) :
    Written file w.tensors w.dataLen ∧ List.Forall₂ (Kept file) adds w.tensors := by
  obtain ⟨tabled, htabled, hheader⟩ := Lists.bind_eq_ok hfinish
  obtain ⟨rfl, hmax⟩ := writeAllAt_ok htabled
  obtain ⟨rfl, -⟩ := writeAllAt_ok hheader
  have hreach := h.reach
  have hMAX : ALIGN ≤ MAX_FILE := by decide
  have hhead : (header w.tensors.length w.dataLen (encode w.tensors)).length = ALIGN := length_header
  have hne : header w.tensors.length w.dataLen (encode w.tensors) ≠ [] := by
    rw [← List.length_pos_iff, hhead]
    decide
  have hlen : (put (put w.file (ALIGN + w.dataLen) (encode w.tensors)) 0
      (header w.tensors.length w.dataLen (encode w.tensors))).length =
        ALIGN + w.dataLen + (encode w.tensors).length ∧
      ALIGN + w.dataLen + (encode w.tensors).length ≤ MAX_FILE := by
    rw [length_put hne, hhead]
    by_cases htable : encode w.tensors = []
    · have hfresh := h.fresh (encode_eq_nil_iff.mp htable)
      rw [htable, put_nil, List.length_nil]
      omega
    · have hend := hmax htable
      rw [length_put htable]
      omega
  refine ⟨⟨?_, ?_, hlen.1, h.aligned, hlen.1 ▸ hlen.2, h.valid⟩, ?_⟩
  · exact Holds.left holds_put
  · exact holds_put.put (.inr (by omega))
  · refine kept_put (kept_put h.kept fun t ht => .inl ?_) fun t ht => .inr (by omega)
    have hinside := (h.valid t ht).inside.2
    omega

/-! ## Verification -/

/-- The checksum of what follows continues that of what went before. -/
theorem crc32c_append (crc : UInt32) (xs ys : List UInt8) :
    crc32c (crc32c crc xs) ys = crc32c crc (xs ++ ys) := by
  simp [crc32c]

/-- Chunk by chunk, the checksum is that of all the bytes. -/
theorem crcOf_eq {fuel i len : ℕ} (crc : UInt32) (hfuel : len < fuel) (hi : len = 0 ∨ i + len ≤ file.length)
    (hmax : file.length ≤ MAX_FILE) : crcOf file fuel i len crc = .ok (crc32c crc (slice file i len)) := by
  induction fuel generalizing i len crc with
  | zero => omega
  | succ fuel ih =>
    have hMAX : MAX_FILE < 2 ^ 63 := by decide
    have hCHUNK : 0 < CHUNK := by decide
    unfold crcOf
    by_cases hlen : len = 0
    · rw [if_pos hlen, hlen, slice_zero]
      simp [crc32c]
    · have hend : i + len ≤ file.length := hi.resolve_left hlen
      have hread : readExactAt file (min CHUNK len) i = .ok (slice file i (min CHUNK len)) :=
        readExactAt_of_le (by omega) (by omega)
      rw [if_neg hlen, hread]
      dsimp only [bind, Except.bind]
      rw [ih _ (by omega) (by omega), crc32c_append, ← slice_split]

theorem verifyOne_eq {a : Added} {t : Tensor} (h : Kept file a t)
    (hin : ALIGN + t.offset + t.len ≤ file.length) (hmax : file.length ≤ MAX_FILE) :
    verifyOne file t = .ok () := by
  have hbytes : slice file (ALIGN + t.offset) t.len = a.bytes := h.len ▸ h.bytes
  unfold verifyOne
  rw [crcOf_eq 0 (Nat.lt_succ_self _) (.inr hin) hmax, hbytes, ← h.crc]
  dsimp only [bind, Except.bind]
  rw [if_neg (not_not_intro rfl)]

theorem verify_cons (t : Tensor) (ts : List Tensor) :
    verify file (t :: ts) = (do verifyOne file t; verify file ts) := rfl

theorem verify_eq {adds : List Added} {ts : List Tensor} (h : List.Forall₂ (Kept file) adds ts)
    (hin : ∀ t ∈ ts, ALIGN + t.offset + t.len ≤ file.length) (hmax : file.length ≤ MAX_FILE) :
    verify file ts = .ok () := by
  induction h with
  | nil => rfl
  | cons ht _ ih =>
    obtain ⟨hone, hrest⟩ := List.forall_mem_cons.mp hin
    rw [verify_cons, verifyOne_eq ht hone hmax]
    exact ih hrest

/-! ## A whole file -/

/-- A file opens as the tensors that were added, each in a region of its own, passes verification
and is refused when it is cut short. -/
structure ReadsBack (lossy : List UInt8 → String) (file : List UInt8) (adds : List Added) : Prop where
  opens : ∃ ts d, index lossy file = .ok (ts, d) ∧ List.Forall₂ (Kept file) adds ts ∧
    (∀ t ∈ ts, t.offset % ALIGN = 0) ∧ (ts.Pairwise fun s t => s.offset + s.len ≤ t.offset) ∧
    Inside file ts d ∧ verify file ts = .ok ()
  cut : ∀ k < file.length, ∀ r, index lossy (file.take k) ≠ .ok r

/-- How a written file is laid out. -/
theorem written_of_write {adds : List Added} (h : write adds = .ok file) :
    ∃ w, Laid w adds ∧ Written file w.tensors w.dataLen ∧ List.Forall₂ (Kept file) adds w.tensors := by
  obtain ⟨w, hadds, hfinish⟩ := Lists.bind_eq_ok h
  have hlaid : Laid w ([] ++ adds) := laid_create.addAll hadds
  obtain ⟨hw, hkept⟩ := hlaid.written hfinish
  exact ⟨w, hlaid, hw, hkept⟩

/-- The header counts the tensors in 32 bits. -/
theorem length_lt_of_opens {adds : List Added} {ts : List Tensor} {d : ℕ} (h : write adds = .ok file)
    (hopen : index lossy file = .ok (ts, d)) : adds.length < 2 ^ 32 := by
  obtain ⟨w, -, hw, hkept⟩ := written_of_write h
  by_contra hlt
  rw [hw.index_eq, if_neg (hkept.length_eq ▸ hlt)] at hopen
  cases hopen

theorem readsBack_iff_counted {adds : List Added} (h : write adds = .ok file) :
    ReadsBack lossy file adds ↔ adds.length < 2 ^ 32 := by
  constructor
  · intro hback
    obtain ⟨ts, d, hopen, -⟩ := hback.opens
    exact length_lt_of_opens h hopen
  · intro hlt
    obtain ⟨w, hlaid, hw, hkept⟩ := written_of_write h
    have hsmall := hw.small
    have hsize := hw.size
    have hopen : index lossy file = .ok (w.tensors, w.dataLen) := by
      rw [hw.index_eq, if_pos (hkept.length_eq ▸ hlt)]
    have hin : ∀ t ∈ w.tensors, t.offset + t.len < 2 ^ 64 ∧ t.offset + t.len ≤ w.dataLen :=
      fun t ht => (hw.valid t ht).inside
    have hinside : Inside file w.tensors w.dataLen := ⟨by omega, by omega, hin⟩
    have hverify := verify_eq hkept (fun t ht => hinside.read_le ht) hw.max
    exact ⟨⟨_, _, hopen, hkept, fun t ht => (hw.valid t ht).aligned, hlaid.apart, hinside, hverify⟩,
      fun k hk => hw.index_take hk⟩

/-- Three bytes and two numbers. -/
def pair : List Added := [⟨"a", .u8, [3], [7, 8, 9], by decide⟩, ⟨"bias", .f16, [2, 1], [0, 60, 0, 192], by decide⟩]

theorem readsBack_pair : ∃ file, write pair = .ok file ∧ ReadsBack (fun _ => "") file pair := by
  have hwrite : (write pair).isOk := by decide +kernel
  obtain ⟨file, hfile⟩ : ∃ file, write pair = .ok file := by
    generalize write pair = r at hwrite
    cases r with
    | error _ => cases hwrite
    | ok file => exact ⟨file, rfl⟩
  exact ⟨file, hfile, (readsBack_iff_counted hfile).mpr (by decide)⟩

/-- A tensor of no bytes and no name. -/
def blank : Added := ⟨"", .u8, [0], [], by decide⟩

def blankTensor : Tensor := ⟨"", .u8, [0], 0, 0, 0⟩

theorem add_blank (ts : List Tensor) :
    Writer.add ⟨[], ts, 0⟩ "" .u8 [0] [] = .ok ⟨[], ts ++ [blankTensor], 0⟩ := by
  have hcrc : crc32c 0 [] = 0 := by decide
  have hblock : Writer.nextMultipleOf 0 ALIGN = 0 := by decide
  unfold Writer.add
  rw [if_neg (by decide)]
  dsimp only [writeAllAt, bind, Except.bind]
  rw [if_neg (by decide), put_nil, hcrc]
  dsimp only [List.length_nil, Nat.add_zero]
  rw [hblock, blankTensor]

theorem addAll_blank (n : ℕ) (ts : List Tensor) :
    Writer.addAll ⟨[], ts, 0⟩ (List.replicate n blank) = .ok ⟨[], ts ++ List.replicate n blankTensor, 0⟩ := by
  induction n generalizing ts with
  | zero =>
    rw [List.replicate_zero, List.replicate_zero, List.append_nil]
    rfl
  | succ n ih =>
    have hcons : Writer.addAll ⟨[], ts, 0⟩ (blank :: List.replicate n blank) =
        Writer.add ⟨[], ts, 0⟩ "" .u8 [0] [] >>= fun w => w.addAll (List.replicate n blank) := rfl
    rw [List.replicate_succ, List.replicate_succ, hcons, add_blank,
      List.append_cons ts blankTensor (List.replicate n blankTensor)]
    dsimp only [bind, Except.bind]
    exact ih (ts ++ [blankTensor])

theorem length_encode_blank (n : ℕ) : (encode (List.replicate n blankTensor)).length = 32 * n := by
  have hone : (encodeOne blankTensor).length = 32 := by decide
  induction n with
  | zero => rfl
  | succ n ih =>
    rw [List.replicate_succ, encode, List.flatMap_cons, List.length_append, hone, ← encode, ih]
    omega

theorem write_blank {n : ℕ} (hn : 32 * n ≤ 2 ^ 62) : ∃ file, write (List.replicate n blank) = .ok file := by
  have hadds : Writer.create.addAll (List.replicate n blank) = .ok ⟨[], List.replicate n blankTensor, 0⟩ :=
    addAll_blank n []
  have htable := length_encode_blank n
  have hMAX : ALIGN + 2 ^ 62 ≤ MAX_FILE := by decide
  unfold write
  rw [hadds]
  unfold Writer.finish
  dsimp only [bind, Except.bind]
  unfold writeAllAt
  rw [if_neg (by omega)]
  dsimp only
  rw [if_neg (by rw [length_header]; omega)]
  exact ⟨_, rfl⟩

/-- As many tensors as the header cannot count. -/
theorem uncounted_lost : ∃ file, write (List.replicate (2 ^ 32) blank) = .ok file ∧
    ¬ReadsBack (fun _ => "") file (List.replicate (2 ^ 32) blank) := by
  obtain ⟨file, hfile⟩ := write_blank (show 32 * 2 ^ 32 ≤ 2 ^ 62 by decide)
  refine ⟨file, hfile, fun hback => ?_⟩
  obtain ⟨ts, d, hopen, -⟩ := hback.opens
  have hlt := length_lt_of_opens hfile hopen
  rw [List.length_replicate] at hlt
  exact Nat.lt_irrefl _ hlt

end Chatlink.Wpk
