import Chatlink.Lib.Lists
import Chatlink.Wpk.Format

/-!
# Where the regions of an accepted file lie

Each sum over an entry's numbers is guarded before it is compared. The sum of the header's block
and the data's length is not: it wraps for one length, and only then does a region that opening
accepts leave the file.
-/
namespace Chatlink.Wpk

open Codec Files Serve.Writer

variable {lossy : List UInt8 → String} {file : List UInt8} {ts : List Tensor} {t : Tensor} {d : ℕ}
  {c c' : Cursor}

theorem firstFailure_eq_none_iff {checks : List (Bool × String)} :
    firstFailure checks = none ↔ ∀ c ∈ checks, c.1 = true := by
  simp [firstFailure]

/-- An entry that passes its checks lies inside the data region. -/
theorem Entry.inside_of_check {e : Entry} {short : Bool} (h : e.check d short = .ok t) :
    t.offset + t.len < 2 ^ 64 ∧ t.offset + t.len ≤ d := by
  unfold Entry.check at h
  split at h
  · rename_i hf _
    obtain rfl := Except.ok.inj h
    have hlast := firstFailure_eq_none_iff.mp hf _
      (List.mem_of_getElem? (show _[5]? = some _ from rfl))
    simpa using hlast
  · cases h

theorem bind_apply {α β : Type} (x : Reader α) (f : α → Reader β) (c : Cursor) :
    (x >>= f) c = f (x c).1 (x c).2 := rfl

theorem pure_apply {α : Type} (a : α) (c : Cursor) : (pure a : Reader α) c = (a, c) := rfl

theorem decode_apply : decode lossy d c =
    ((entry lossy c).1.check d (entry lossy c).2.short, (entry lossy c).2) := by
  unfold decode
  rw [bind_apply, bind_apply]
  generalize entry lossy c = r
  rfl

theorem inside_of_decode (h : decode lossy d c = (.ok t, c')) :
    t.offset + t.len < 2 ^ 64 ∧ t.offset + t.len ≤ d := by
  rw [decode_apply, Prod.mk.injEq] at h
  exact Entry.inside_of_check h.1

/-- The entries that are read are the first one and the rest. -/
theorem decodeAll_succ {n : ℕ} (h : decodeAll lossy d (n + 1) c = (.ok ts, c')) :
    ∃ t c₁ us, decode lossy d c = (.ok t, c₁) ∧ decodeAll lossy d n c₁ = (.ok us, c') ∧ ts = t :: us := by
  unfold decodeAll at h
  rw [bind_apply] at h
  generalize decode lossy d c = r at h
  obtain ⟨_ | t, c₁⟩ := r
  · cases h
  dsimp only at h
  rw [bind_apply] at h
  generalize hr : decodeAll lossy d n c₁ = r at h
  obtain ⟨_ | us, c₂⟩ := r
  · cases h
  obtain ⟨hts, rfl⟩ := Prod.mk.inj h
  exact ⟨t, c₁, us, rfl, hr, (Except.ok.inj hts).symm⟩

theorem inside_of_decodeAll {n : ℕ} (h : decodeAll lossy d n c = (.ok ts, c')) :
    ∀ t ∈ ts, t.offset + t.len < 2 ^ 64 ∧ t.offset + t.len ≤ d := by
  induction n generalizing c ts with
  | zero =>
    obtain ⟨hts, -⟩ := Prod.mk.inj h
    obtain rfl := Except.ok.inj hts
    exact List.forall_mem_nil _
  | succ n ih =>
    obtain ⟨t, c₁, us, ht, hus, rfl⟩ := decodeAll_succ h
    exact List.forall_mem_cons.mpr ⟨inside_of_decode ht, ih hus⟩

theorem bytes_of_readExactAt {n i : ℕ} {bytes : List UInt8} (h : readExactAt file n i = .ok bytes) :
    (n = 0 ∨ i + n ≤ file.length) ∧ bytes = slice file i n := by
  unfold readExactAt at h
  split_ifs at h with hn hi hfile
  · obtain rfl := Except.ok.inj h
    rw [hn, slice_zero]
    exact ⟨.inl rfl, rfl⟩
  · exact ⟨.inr hfile, (Except.ok.inj h).symm⟩

/-- The header of a file of at least one. -/
def headOf (file : List UInt8) : Head := (head ⟨slice file 0 HEADER, false⟩).1

/-- What opening has found when it accepts a file. -/
theorem index_ok (h : index lossy file = .ok (ts, d)) :
    HEADER ≤ file.length ∧ headFailure (slice file 0 HEADER) (headOf file) file.length = none ∧ d = (headOf file).dataLen ∧
      ∃ table c, decodeAll lossy d ((headOf file).version / 2 ^ 32) ⟨table, false⟩ = (.ok ts, c) := by
  unfold index at h
  obtain ⟨bytes, hbytes, h⟩ := Lists.bind_eq_ok h
  obtain ⟨hsize, rfl⟩ := bytes_of_readExactAt hbytes
  dsimp only at h
  rw [← headOf] at h
  split at h
  · cases h
  rename_i hnone
  obtain ⟨table, -, h⟩ := Lists.bind_eq_ok h
  split at h
  · cases h
  obtain ⟨us, hus, h⟩ := Lists.bind_eq_ok h
  split at h
  · obtain ⟨rfl, rfl⟩ := Prod.mk.inj (Except.ok.inj h)
    exact ⟨by simpa [HEADER] using hsize, hnone, rfl, table, _, Prod.ext hus rfl⟩
  · cases h

/-- Every region of the index lies inside the data, and the data inside the file; none of the sums
that say so has wrapped. -/
structure Inside (file : List UInt8) (ts : List Tensor) (d : ℕ) : Prop where
  fits : ALIGN + d < 2 ^ 64
  region : ALIGN + d ≤ file.length
  tensors : ∀ t ∈ ts, t.offset + t.len < 2 ^ 64 ∧ t.offset + t.len ≤ d

/-- What is read of a tensor's bytes stays inside the file. -/
theorem Inside.read_le (h : Inside file ts d) (ht : t ∈ ts) : ALIGN + t.offset + t.len ≤ file.length := by
  have hregion := h.region
  have hinside := (h.tensors t ht).2
  omega

theorem take_of_le {n : ℕ} (h : n ≤ c.rest.length) :
    take n c = (c.rest.take n, { c with rest := c.rest.drop n }) :=
  if_pos h

theorem int_of_le {n : ℕ} (h : n ≤ c.rest.length) :
    int n c = (ofLe (c.rest.take n), { c with rest := c.rest.drop n }) := by
  unfold int
  rw [bind_apply, take_of_le h, pure_apply]

/-- The length of the data that the header of a file states. -/
def statedDataLen (file : List UInt8) : ℕ := ofLe (slice file 16 8)

theorem head_dataLen : (head c).1.dataLen = (int 8 (int 8 (take 8 c).2).2).1 := by
  unfold head
  simp only [bind_apply, pure_apply]

theorem headOf_dataLen (h : HEADER ≤ file.length) : (headOf file).dataLen = statedDataLen file := by
  have hlen : (slice file 0 HEADER).length = 48 := length_slice_of_le (by rwa [Nat.zero_add])
  have hslice : slice (slice file 0 HEADER) 16 8 = slice file (0 + 16) 8 := slice_slice (by decide)
  have hversion : (int 8 ⟨(slice file 0 HEADER).drop 8, false⟩).2 = ⟨(slice file 0 HEADER).drop 16, false⟩ := by
    rw [int_of_le (by rw [List.length_drop]; omega), List.drop_drop]
  rw [headOf, head_dataLen, take_of_le (by dsimp only; omega), hversion,
    int_of_le (by rw [List.length_drop]; omega), ← slice, hslice, statedDataLen]

theorem statedDataLen_lt (file : List UInt8) : statedDataLen file < 2 ^ 64 := by
  have hlt := ofLe_lt (slice file 16 8)
  have hle : (slice file 16 8).length ≤ 8 := by
    rw [length_slice]
    exact Nat.min_le_left _ _
  calc statedDataLen file < 256 ^ (slice file 16 8).length := hlt
    _ ≤ 256 ^ 8 := Nat.pow_le_pow_right (by decide) hle
    _ = 2 ^ 64 := by norm_num

/-- The regions of an accepted file lie inside it exactly when the header's sum does not wrap. -/
theorem index_inside (h : index lossy file = .ok (ts, d)) :
    Inside file ts d ↔ statedDataLen file ≠ 2 ^ 64 - ALIGN := by
  obtain ⟨hsize, hhead, hd, table, c, hall⟩ := index_ok h
  rw [headOf_dataLen hsize] at hd
  have hchecks := firstFailure_eq_none_iff.mp hhead
  have hregion := hchecks _ (List.mem_of_getElem? (show _[3]? = some _ from rfl))
  have htable := hchecks _ (List.mem_of_getElem? (show _[4]? = some _ from rfl))
  simp only [Bool.and_eq_true, decide_eq_true_eq] at hregion htable
  rw [headOf_dataLen hsize] at hregion
  obtain ⟨hblocks, hat⟩ := hregion
  have hlt : statedDataLen file < 2 ^ 64 := statedDataLen_lt file
  have hALIGN : ALIGN = 4096 := rfl
  rw [hALIGN] at hblocks
  constructor
  · intro hin heq
    have hfits := hin.fits
    omega
  · intro hne
    -- A multiple of the block below 2^64 is at most the one that is left out.
    have hfits : ALIGN + statedDataLen file < 2 ^ 64 := by omega
    rw [Nat.mod_eq_of_lt hfits] at hat
    exact ⟨hd ▸ hfits, by omega, inside_of_decodeAll hall⟩

/-- Three bytes and, in the next block, four. -/
def twoTensors : List Tensor :=
  [⟨"a", .u8, [3], 0, 3, crc32c 0 [7, 8, 9]⟩, ⟨"bias", .f16, [2, 1], ALIGN, 4, crc32c 0 [0, 60, 0, 192]⟩]

def twoRegions : List UInt8 :=
  header 2 (2 * ALIGN) (encode twoTensors) ++ [7, 8, 9] ++ List.replicate (ALIGN - 3) 0 ++
    [0, 60, 0, 192] ++ List.replicate (ALIGN - 4) 0 ++ encode twoTensors

theorem index_inside_two : Inside twoRegions twoTensors (2 * ALIGN) := by
  have hopen : index (fun _ => "") twoRegions = .ok (twoTensors, 2 * ALIGN) := by decide +kernel
  exact (index_inside hopen).mpr (by decide +kernel)

/-- A file of nothing but a header, whose data is said to be of 2^64 - 4096 bytes. -/
def wrapped : List UInt8 :=
  let fields := MAGIC ++ [VERSION, 2 ^ 64 - ALIGN, 0, 0].flatMap (le 8) ++ le 4 0
  fields ++ le 4 (crc32c 0 fields).toNat

theorem wrapped_outside : index (fun _ => "") wrapped = .ok ([], 2 ^ 64 - ALIGN) ∧
    ¬Inside wrapped [] (2 ^ 64 - ALIGN) := by
  refine ⟨by decide +kernel, fun hin => ?_⟩
  exact absurd hin.fits (by decide)

end Chatlink.Wpk
