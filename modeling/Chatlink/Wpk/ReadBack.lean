import Chatlink.Wpk.Bounds

/-!
# Written files read back

The table is read entry by entry from what `encode` writes. A file that was written holds the
header, the bytes of every tensor and the table, each where the header and the table say, and
nothing behind the table.
-/
namespace Chatlink.Wpk

open Codec Files Serve.Writer

variable {lossy : List UInt8 → String} {file rest : List UInt8} {ts : List Tensor} {t : Tensor} {d : ℕ}
  {short : Bool}

/-! ## The table -/

theorem take_append {n : ℕ} {bs : List UInt8} (h : bs.length = n) :
    take n ⟨bs ++ rest, short⟩ = (bs, ⟨rest, short⟩) := by
  subst h
  rw [take_of_le (by simp), List.take_left, List.drop_left]

theorem int_append {w n : ℕ} (h : n < 256 ^ w) :
    int w ⟨le w n ++ rest, short⟩ = (n, ⟨rest, short⟩) := by
  unfold int
  rw [bind_apply, take_append (length_le w n), pure_apply, ofLe_le_of_lt h]

theorem ints_append {w : ℕ} {xs : List ℕ} (h : ∀ x ∈ xs, x < 256 ^ w) :
    ints w xs.length ⟨xs.flatMap (le w) ++ rest, short⟩ = (xs, ⟨rest, short⟩) := by
  induction xs with
  | nil => rfl
  | cons x xs ih =>
    obtain ⟨hx, hxs⟩ := List.forall_mem_cons.mp h
    rw [List.flatMap_cons, List.append_assoc, List.length_cons]
    unfold ints
    rw [bind_apply, int_append hx, bind_apply, ih hxs, pure_apply]

/-- What a tensor of a table has to satisfy for a region of `d` bytes. -/
structure Tensor.Valid (t : Tensor) (d : ℕ) : Prop where
  name : (utf8 t.name).length < 2 ^ 16
  rank : t.shape.length ≤ MAX_RANK
  shape : ∀ n ∈ t.shape, n < 2 ^ 64
  aligned : t.offset % ALIGN = 0
  counted : bytesOf t.dtype t.shape = some t.len
  inside : t.offset + t.len < 2 ^ 64 ∧ t.offset + t.len ≤ d

theorem Tensor.Valid.mono {d' : ℕ} (h : t.Valid d) (hd : d ≤ d') : t.Valid d' :=
  { h with inside := ⟨h.inside.1, h.inside.2.trans hd⟩ }

theorem fromUtf8Lossy_utf8 (name : String) : fromUtf8Lossy lossy (utf8 name) = name := by
  rw [fromUtf8Lossy, Serve.fromUtf8_utf8, Option.getD_some]

theorem Dtype.ALL_code (dtype : Dtype) : Dtype.ALL[dtype.code]? = some dtype := by
  cases dtype <;> rfl

theorem Dtype.code_lt (dtype : Dtype) : dtype.code < 256 ^ 1 := by
  cases dtype <;> decide

theorem entry_append (h : t.Valid d) : entry lossy ⟨encodeOne t ++ rest, short⟩ =
    (⟨t.name, some t.dtype, t.shape.length, t.shape, t.offset, t.len, t.crc.toNat⟩, ⟨rest, short⟩) := by
  have hinside := h.inside.1
  have hrank : t.shape.length ≤ 8 := h.rank
  have hcrc : t.crc.toNat < 256 ^ 4 := t.crc.toNat_lt
  have hmin : min t.shape.length MAX_RANK = t.shape.length := Nat.min_eq_left h.rank
  have hnumbers : encodeOne t ++ rest = le 2 (utf8 t.name).length ++ (utf8 t.name ++ (le 1 t.dtype.code ++
      (le 1 t.shape.length ++ (t.shape.flatMap (le 8) ++ (le 8 t.offset ++ (le 8 t.len ++
        (le 4 t.crc.toNat ++ rest))))))) := by
    simp [encodeOne]
  rw [hnumbers]
  unfold entry
  rw [bind_apply, int_append h.name, bind_apply, take_append rfl, bind_apply, int_append t.dtype.code_lt,
    bind_apply, int_append (by omega)]
  dsimp only
  rw [hmin, bind_apply, ints_append h.shape, bind_apply, int_append (by omega), bind_apply,
    int_append (by omega), bind_apply, int_append hcrc, pure_apply, fromUtf8Lossy_utf8, Dtype.ALL_code]

theorem check_of_valid (h : t.Valid d) :
    (⟨t.name, some t.dtype, t.shape.length, t.shape, t.offset, t.len, t.crc.toNat⟩ : Entry).check d false =
      .ok t := by
  have hnone : (⟨t.name, some t.dtype, t.shape.length, t.shape, t.offset, t.len, t.crc.toNat⟩ : Entry).failure
      d false = none := by
    refine firstFailure_eq_none_iff.mpr ?_
    have hlt : t.offset + t.len < 18446744073709551616 := h.inside.1
    simp [h.rank, h.aligned, h.counted, h.inside.2, hlt]
  unfold Entry.check
  rw [hnone]
  dsimp only
  rw [UInt32.ofNat_toNat]

theorem decode_append (h : t.Valid d) :
    decode lossy d ⟨encodeOne t ++ rest, false⟩ = (.ok t, ⟨rest, false⟩) := by
  rw [decode_apply, entry_append h, check_of_valid h]

theorem encodeOne_ne_nil : encodeOne t ≠ [] := by
  intro h
  have hlen : (encodeOne t).length = 0 := by rw [h, List.length_nil]
  simp [encodeOne] at hlen

theorem encode_eq_nil_iff : encode ts = [] ↔ ts = [] := by
  cases ts with
  | nil => simp [encode]
  | cons t ts => simp [encode, encodeOne_ne_nil]

/-- The first entries of a written table, and what is left of it. -/
theorem decodeAll_append {n : ℕ} (h : ∀ t ∈ ts, t.Valid d) (hn : n ≤ ts.length) :
    decodeAll lossy d n ⟨encode ts, false⟩ = (.ok (ts.take n), ⟨encode (ts.drop n), false⟩) := by
  induction n generalizing ts with
  | zero => rfl
  | succ n ih =>
    obtain - | ⟨t, ts⟩ := ts
    · simp at hn
    obtain ⟨ht, hts⟩ := List.forall_mem_cons.mp h
    have hrest := ih hts (by simpa using hn)
    unfold decodeAll
    rw [bind_apply, encode, List.flatMap_cons, decode_append ht]
    dsimp only
    rw [bind_apply, ← encode, hrest]
    rfl

/-! ## The header -/

theorem length_headerFields {n : ℕ} {table : List UInt8} : (headerFields n d table).length = 44 := by
  simp [headerFields, MAGIC]

theorem length_header {n : ℕ} {table : List UInt8} : (header n d table).length = ALIGN := by
  unfold header
  dsimp only
  simp only [List.length_append, List.length_replicate, length_headerFields, length_le]
  decide

/-- The header's numbers with their checksum. -/
def headerBytes (n d : ℕ) (table : List UInt8) : List UInt8 :=
  headerFields n d table ++ le 4 (crc32c 0 (headerFields n d table)).toNat

theorem length_headerBytes {n : ℕ} {table : List UInt8} : (headerBytes n d table).length = HEADER := by
  simp [headerBytes, length_headerFields, HEADER]

theorem head_headerBytes {n : ℕ} {table : List UInt8} (hd : ALIGN + d < 2 ^ 64) (ht : table.length < 2 ^ 64) :
    (head ⟨headerBytes n d table, false⟩).1 =
      ⟨MAGIC, VERSION + n % 2 ^ 32 * 2 ^ 32, d, ALIGN + d, table.length, (crc32c 0 table).toNat,
        (crc32c 0 (headerFields n d table)).toNat⟩ := by
  have hversion : VERSION + n % 2 ^ 32 * 2 ^ 32 < 256 ^ 8 := by
    have hlt : n % 2 ^ 32 < 2 ^ 32 := Nat.mod_lt _ (by decide)
    simp only [VERSION]
    omega
  have hnumbers : headerBytes n d table = MAGIC ++ (le 8 (VERSION + n % 2 ^ 32 * 2 ^ 32) ++ (le 8 d ++
      (le 8 (ALIGN + d) ++ (le 8 table.length ++ (le 4 (crc32c 0 table).toNat ++
        (le 4 (crc32c 0 (headerFields n d table)).toNat ++ [])))))) := by
    simp [headerBytes, headerFields]
  have hmagic : MAGIC.length = 8 := rfl
  rw [hnumbers]
  unfold head
  rw [bind_apply, take_append hmagic, bind_apply, int_append hversion, bind_apply, int_append (by omega),
    bind_apply, int_append (by omega), bind_apply, int_append (by omega), bind_apply,
    int_append (UInt32.toNat_lt _), bind_apply, int_append (UInt32.toNat_lt _), pure_apply]

/-- Where the parts of a written file stand. -/
structure Written (file : List UInt8) (ts : List Tensor) (d : ℕ) : Prop where
  head : Holds file 0 (headerBytes ts.length d (encode ts))
  table : Holds file (ALIGN + d) (encode ts)
  size : file.length = ALIGN + d + (encode ts).length
  aligned : d % ALIGN = 0
  max : file.length ≤ MAX_FILE
  valid : ∀ t ∈ ts, t.Valid d

theorem readExactAt_of_le {n i : ℕ} (hi : i < 2 ^ 63) (h : i + n ≤ file.length) :
    readExactAt file n i = .ok (slice file i n) := by
  unfold readExactAt
  split_ifs with hn
  · rw [hn, slice_zero]
  · omega
  · rfl

namespace Written

variable (hw : Written file ts d)

include hw

theorem small : ALIGN + d + (encode ts).length < 2 ^ 63 := by
  have hmax : file.length ≤ 2 ^ 63 - 1 := hw.max
  have hsize := hw.size
  omega

theorem slice_head : slice file 0 HEADER = headerBytes ts.length d (encode ts) := by
  have h := hw.head
  rwa [Holds, length_headerBytes] at h

theorem headOf_eq : headOf file =
    ⟨MAGIC, VERSION + ts.length % 2 ^ 32 * 2 ^ 32, d, ALIGN + d, (encode ts).length,
      (crc32c 0 (encode ts)).toNat, (crc32c 0 (headerFields ts.length d (encode ts))).toNat⟩ := by
  have hsmall := hw.small
  rw [headOf, hw.slice_head, head_headerBytes (by omega) (by omega)]

theorem headFailure_eq : headFailure (slice file 0 HEADER) (headOf file) file.length = none := by
  have hsmall := hw.small
  have hsize := hw.size
  have hfields : (headerBytes ts.length d (encode ts)).take (HEADER - 4) = headerFields ts.length d (encode ts) :=
    List.take_left' length_headerFields
  have hversion : (VERSION + ts.length % 2 ^ 32 * 2 ^ 32) % 2 ^ 32 = VERSION := by
    rw [Nat.add_mul_mod_self_right]
    rfl
  have hat : (ALIGN + d) % 2 ^ 64 = ALIGN + d := Nat.mod_eq_of_lt (by omega)
  have hend : ALIGN + d + (encode ts).length < 2 ^ 64 := by omega
  refine firstFailure_eq_none_iff.mpr ?_
  rw [hw.headOf_eq, hw.slice_head]
  dsimp only
  rw [hfields, hversion, hat, hsize]
  simp only [List.forall_mem_cons, decide_eq_true_eq, Bool.and_eq_true]
  exact ⟨trivial, trivial, trivial, ⟨hw.aligned, trivial⟩, ⟨hend, Nat.le_refl _⟩, List.forall_mem_nil _⟩

theorem index_eq : index lossy file = if ts.length < 2 ^ 32 then .ok (ts, d)
    else .error (.format "the tensor table has trailing bytes") := by
  have hsmall := hw.small
  have hsize := hw.size
  have hhead : readExactAt file HEADER 0 = .ok (slice file 0 HEADER) := by
    have hlen := congrArg List.length hw.slice_head
    rw [length_slice, length_headerBytes] at hlen
    exact readExactAt_of_le (by decide) (by omega)
  have htable : readExactAt file (encode ts).length (ALIGN + d) = .ok (encode ts) := by
    rw [readExactAt_of_le (by omega) (by omega)]
    exact congrArg _ hw.table
  obtain ⟨n, hn⟩ : ∃ n, n = ts.length % 2 ^ 32 := ⟨_, rfl⟩
  have hcount : (headOf file).version / 2 ^ 32 = n := by
    rw [hw.headOf_eq, hn]
    dsimp only
    rw [Nat.add_mul_div_right _ _ (Nat.two_pow_pos 32), VERSION, Nat.div_eq_of_lt (by decide), Nat.zero_add]
  have hdataLen : (headOf file).dataLen = d := by rw [hw.headOf_eq]
  have htableAt : (headOf file).tableAt = ALIGN + d := by rw [hw.headOf_eq]
  have htableLen : (headOf file).tableLen = (encode ts).length := by rw [hw.headOf_eq]
  have htableCrc : (headOf file).tableCrc = (crc32c 0 (encode ts)).toNat := by rw [hw.headOf_eq]
  have hall : decodeAll lossy d n ⟨encode ts, false⟩ = (.ok (ts.take n), ⟨encode (ts.drop n), false⟩) :=
    decodeAll_append hw.valid (hn ▸ Nat.mod_le _ _)
  have hfailure := hw.headFailure_eq
  unfold index
  rw [hhead]
  dsimp only [bind, Except.bind]
  rw [← headOf, hfailure]
  dsimp only
  rw [hcount, hdataLen, htableAt, htableLen, htableCrc, htable]
  dsimp only
  rw [if_neg (not_not_intro rfl), hall]
  dsimp only
  by_cases hlt : ts.length < 2 ^ 32
  · obtain rfl : n = ts.length := hn.trans (Nat.mod_eq_of_lt hlt)
    rw [if_pos hlt, List.drop_length, List.take_length]
    rfl
  · have hshort : n < ts.length := by
      have hmod : ts.length % 2 ^ 32 < 2 ^ 32 := Nat.mod_lt _ (Nat.two_pow_pos 32)
      omega
    have hleft : ts.drop n ≠ [] := by
      rw [Ne, List.drop_eq_nil_iff]
      omega
    rw [if_neg hlt, if_neg (by simpa [encode_eq_nil_iff] using hleft)]

/-- A file that is cut short is refused. -/
theorem index_take {k : ℕ} (hk : k < file.length) (r : List Tensor × ℕ) :
    index lossy (file.take k) ≠ .ok r := by
  intro hr
  obtain ⟨hsize, hhead, -⟩ := index_ok hr
  have hkept : HEADER ≤ k := by
    rw [List.length_take] at hsize
    omega
  have hslice : slice (file.take k) 0 HEADER = slice file 0 HEADER := slice_take (by omega)
  have hend := firstFailure_eq_none_iff.mp hhead _ (List.mem_of_getElem? (show _[4]? = some _ from rfl))
  simp only [Bool.and_eq_true, decide_eq_true_eq] at hend
  rw [headOf, hslice, ← headOf, hw.headOf_eq, ← hw.size, List.length_take] at hend
  omega

end Written

end Chatlink.Wpk
