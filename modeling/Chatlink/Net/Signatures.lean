import Chatlink.Net.Messages

/-!
# Signatures in DER

The numbers of a signature are written in one way only: lengths in their shortest form, numbers without bytes they do
not need, nothing behind them. What is read is what is written so, and no other bytes are read.
-/
namespace Chatlink.Net

namespace Der

/-- The big-endian bytes of a number, none before the first that is not zero. -/
def octets (n : ℕ) : List UInt8 := (Nat.digits 256 n).reverse.map UInt8.ofNat

/-- The shortest form of a length: one byte, or as many as it takes after one that counts them. -/
def encodeLength (n : ℕ) : List UInt8 :=
  if n < 0x80 then [UInt8.ofNat n] else UInt8.ofNat (0x80 + (octets n).length) :: octets n

/-- An element around its content. -/
def encode (tag : UInt8) (content : List UInt8) : List UInt8 :=
  tag :: (encodeLength content.length ++ content)

/-- The content of a non-negative INTEGER: its bytes, behind a zero where the first would read as a sign. -/
def encodeInteger (n : ℕ) : List UInt8 :=
  match octets n with
  | [] => [0]
  | b :: bs => if 0x80 ≤ b then 0 :: b :: bs else b :: bs

/-- A SEQUENCE of two INTEGERs. -/
def encodeSignature (r s : ℕ) : List UInt8 :=
  encode 0x30 (encode 0x02 (encodeInteger r) ++ encode 0x02 (encodeInteger s))

variable {b bs rest m int content : List UInt8} {tag : UInt8} {n : ℕ} {e : Element}

theorem big_eq_ofDigits (bs : List UInt8) : big bs = Nat.ofDigits 256 (bs.map UInt8.toNat).reverse := by
  induction bs using List.reverseRecOn with
  | nil => rfl
  | append_singleton bs b ih =>
    have hb : big [b] = b.toNat := by simp [big]
    rw [big_append, ih, hb, List.map_append, List.reverse_append]
    simp only [List.map_cons, List.map_nil, List.reverse_singleton, List.singleton_append, Nat.ofDigits_cons,
      List.length_singleton, pow_one]
    ring

theorem octets_big (h : bs.head? ≠ some 0) : octets (big bs) = bs := by
  have hdigits : Nat.digits 256 (big bs) = (bs.map UInt8.toNat).reverse := by
    rw [big_eq_ofDigits]
    refine Nat.digits_ofDigits 256 (by decide) _ ?_ ?_
    · intro d hd
      obtain ⟨b, -, rfl⟩ := List.mem_map.mp (List.mem_reverse.mp hd)
      exact b.toNat_lt
    · intro hne
      cases bs with
      | nil => simp at hne
      | cons b bs =>
        have hb : b ≠ 0 := by simpa using h
        have hnat : b.toNat ≠ 0 := fun h0 => hb (UInt8.toNat_inj.mp h0)
        simpa using hnat
  rw [octets, hdigits, List.reverse_reverse, List.map_map]
  exact List.map_id'' (fun b => UInt8.ofNat_toNat) bs

theorem big_octets (n : ℕ) : big (octets n) = n := by
  have hmap : ((octets n).map UInt8.toNat).reverse = Nat.digits 256 n := by
    rw [octets, List.map_map, ← List.map_reverse, List.reverse_reverse]
    refine (List.map_congr_left fun d hd => ?_).trans (List.map_id _)
    have hlt := Nat.digits_lt_base (by decide : 1 < 256) hd
    rw [Function.comp_apply, UInt8.toNat_ofNat', Nat.mod_eq_of_lt hlt, id]
  rw [big_eq_ofDigits, hmap, Nat.ofDigits_digits]

theorem head_octets (n : ℕ) : (octets n).head? ≠ some 0 := by
  rw [octets, List.head?_map, List.head?_reverse]
  intro h
  obtain ⟨d, hd, h0⟩ := Option.map_eq_some_iff.mp h
  obtain ⟨hne, rfl⟩ := List.mem_getLast?_eq_getLast hd
  have hn : n ≠ 0 := by
    rintro rfl
    simp at hne
  have hlast := Nat.getLast_digit_ne_zero 256 hn
  have hlt := Nat.digits_lt_base (by decide : 1 < 256) (List.getLast_mem hne)
  have h0 := congrArg UInt8.toNat h0
  rw [UInt8.toNat_ofNat', Nat.mod_eq_of_lt hlt] at h0
  exact hlast h0

/-- The bytes of a number are as many as it takes. -/
theorem length_octets_le {k : ℕ} : (octets n).length ≤ k ↔ n < 256 ^ k := by
  constructor
  · intro h
    have hlt := big_lt (octets n)
    rw [big_octets] at hlt
    exact hlt.trans_le (Nat.pow_le_pow_right (by decide) h)
  · intro h
    rw [octets, List.length_map, List.length_reverse]
    exact (Nat.digits_length_le_iff (by decide) n).mpr h

/-! ## Elements -/

theorem encodeLength_short (h : n < 0x80) : encodeLength n = [UInt8.ofNat n] := if_pos h

theorem encodeLength_long (h : 0x80 ≤ big bs) (hhead : bs.head? ≠ some 0) :
    encodeLength (big bs) = UInt8.ofNat (0x80 + bs.length) :: bs := by
  rw [encodeLength, if_neg (by omega), octets_big hhead]

theorem lengths_long {first : UInt8} {k : ℕ} (hfirst : first.toNat = 0x80 + k) (hk : 1 ≤ k) (hk3 : k ≤ 3) :
    lengths b first = if 2 + k ≤ b.length then
      if big ((b.drop 2).take k) < 0x80 ∨ (1 < k ∧ b.getD 2 0 = 0) then none
      else some (big ((b.drop 2).take k), 2 + k) else none := by
  have hmask : (first &&& 0x7f).toNat = k := by
    rw [UInt8.toNat_and, hfirst]
    interval_cases k <;> rfl
  have hshort : ¬first ≤ 0x7f := by
    rw [UInt8.le_iff_toNat_le, hfirst]
    change ¬0x80 + k ≤ 127
    omega
  have hlong : 0x81 ≤ first ∧ first ≤ 0x83 := by
    rw [UInt8.le_iff_toNat_le, UInt8.le_iff_toNat_le, hfirst]
    change 129 ≤ 0x80 + k ∧ 0x80 + k ≤ 131
    omega
  rw [lengths, if_neg hshort, if_pos hlong]
  simp only [hmask]

/-- The length octets of an element give back its length and where its content starts. -/
theorem lengths_encodeLength (tag : UInt8) (h : n < 256 ^ 3) (rest : List UInt8) :
    ∃ first os, encodeLength n = first :: os ∧
      lengths (tag :: first :: (os ++ rest)) first = some (n, 2 + os.length) := by
  by_cases hshort : n < 0x80
  · refine ⟨UInt8.ofNat n, [], encodeLength_short hshort, ?_⟩
    have hnat : (UInt8.ofNat n).toNat = n := by
      rw [UInt8.toNat_ofNat']
      omega
    have hle : UInt8.ofNat n ≤ 0x7f := by
      rw [UInt8.le_iff_toNat_le, hnat]
      exact Nat.le_of_lt_succ hshort
    rw [lengths, if_pos hle, hnat, List.length_nil]
  · have hlong : 0x80 ≤ big (octets n) := by
      rw [big_octets]
      omega
    have hk3 : (octets n).length ≤ 3 := length_octets_le.mpr h
    have hk : 1 ≤ (octets n).length := by
      by_contra h0
      have hlt : n < 256 ^ 0 := length_octets_le.mp (by omega)
      omega
    have henc := encodeLength_long hlong (head_octets n)
    rw [big_octets] at henc
    refine ⟨_, _, henc, ?_⟩
    have hfirst : (UInt8.ofNat (0x80 + (octets n).length)).toNat = 0x80 + (octets n).length := by
      rw [UInt8.toNat_ofNat']
      omega
    rw [lengths_long hfirst hk hk3, if_pos (by simp only [List.length_cons, List.length_append]; omega)]
    have htake : ((tag :: UInt8.ofNat (0x80 + (octets n).length) :: (octets n ++ rest)).drop 2).take
        (octets n).length = octets n := List.take_left
    rw [htake, if_neg, big_octets]
    rintro (hlt | ⟨-, hzero⟩)
    · omega
    · obtain ⟨o, os, hos⟩ := List.exists_cons_of_length_pos hk
      have hhead := head_octets n
      rw [hos] at hhead hzero
      exact hhead (congrArg some hzero)

theorem next_encode (h : content.length < 256 ^ 3) (rest : List UInt8) :
    next (encode tag content ++ rest) = some (⟨tag, content, encode tag content⟩, rest) := by
  obtain ⟨first, os, hlen, hlengths⟩ := lengths_encodeLength tag h (content ++ rest)
  have hcons : encode tag content ++ rest = tag :: first :: (os ++ (content ++ rest)) := by
    simp [encode, hlen]
  have hwhole : (tag :: first :: (os ++ (content ++ rest))).take (2 + os.length + content.length) =
      encode tag content := by
    rw [← hcons]
    refine List.take_left' ?_
    simp [encode, hlen]
    omega
  have hrest : (tag :: first :: (os ++ (content ++ rest))).drop (2 + os.length + content.length) = rest := by
    rw [← hcons]
    refine List.drop_left' ?_
    simp [encode, hlen]
    omega
  have hcontent : (encode tag content).drop (2 + os.length) = content := by
    have hsplit : encode tag content = (tag :: first :: os) ++ content := by simp [encode, hlen]
    rw [hsplit]
    refine List.drop_left' ?_
    simp
    omega
  rw [hcons, next, hlengths]
  simp only [Option.bind_eq_bind, Option.bind_some]
  rw [if_pos (by simp only [List.length_cons, List.length_append]; omega), hwhole, hcontent, hrest]

/-- What the length octets say, put together again. -/
theorem lengths_eq_some {first : UInt8} {head : ℕ} {tail : List UInt8}
    (h : lengths (tag :: first :: tail) first = some (n, head)) :
    ∃ os rest, tail = os ++ rest ∧ head = 2 + os.length ∧ encodeLength n = first :: os ∧ n < 256 ^ 3 := by
  by_cases hshort : first ≤ 0x7f
  · rw [lengths, if_pos hshort] at h
    obtain ⟨rfl, rfl⟩ := Prod.mk.inj (Option.some.inj h)
    have hlt : first.toNat < 0x80 := Nat.lt_succ_of_le (UInt8.le_iff_toNat_le.mp hshort)
    refine ⟨[], tail, rfl, rfl, ?_, by omega⟩
    rw [encodeLength_short hlt, UInt8.ofNat_toNat]
  · by_cases hlong : 0x81 ≤ first ∧ first ≤ 0x83
    · obtain ⟨k, hk⟩ : ∃ k, first.toNat = 0x80 + k := by
        refine ⟨first.toNat - 0x80, ?_⟩
        have := UInt8.le_iff_toNat_le.mp hlong.1
        change 129 ≤ first.toNat at this
        omega
      have h1 := UInt8.le_iff_toNat_le.mp hlong.1
      have h3 := UInt8.le_iff_toNat_le.mp hlong.2
      change 129 ≤ first.toNat at h1
      change first.toNat ≤ 131 at h3
      rw [lengths_long hk (by omega) (by omega)] at h
      split_ifs at h with hroom hbad
      obtain ⟨rfl, rfl⟩ := Prod.mk.inj (Option.some.inj h)
      have hlen : (tail.take k).length = k := by
        simp only [List.length_cons] at hroom
        rw [List.length_take]
        omega
      have hhead : (tail.take k).head? ≠ some 0 := by
        intro h0
        refine hbad ?_
        cases tail with
        | nil => simp at h0
        | cons x t =>
          obtain ⟨j, rfl⟩ : ∃ j, k = j + 1 := ⟨k - 1, by omega⟩
          obtain rfl : x = 0 := Option.some.inj h0
          by_cases hj : 1 < j + 1
          · exact .inr ⟨hj, rfl⟩
          · obtain rfl : j = 0 := by omega
            refine .inl ?_
            change big [0] < 0x80
            decide
      have hlt := big_lt (tail.take k)
      rw [hlen] at hlt
      refine ⟨tail.take k, tail.drop k, (List.take_append_drop k tail).symm, by rw [hlen], ?_, ?_⟩
      · have hge : 0x80 ≤ big (tail.take k) := not_lt.mp fun hlt => hbad (.inl hlt)
        change encodeLength (big (tail.take k)) = _
        rw [encodeLength_long hge hhead, hlen, ← hk, UInt8.ofNat_toNat]
      · exact hlt.trans_le (Nat.pow_le_pow_right (by decide) (by omega))
    · rw [lengths, if_neg hshort, if_neg hlong] at h
      cases h

theorem next_eq_some (h : next b = some (e, rest)) :
    e.content.length < 256 ^ 3 ∧ e.whole = encode e.tag e.content ∧ b = e.whole ++ rest := by
  match b, h with
  | tag :: first :: tail, h =>
    obtain ⟨⟨len, head⟩, hlengths, h⟩ := Option.bind_eq_some_iff.mp h
    dsimp only at h
    split_ifs at h with hroom
    obtain ⟨rfl, rfl⟩ := Prod.mk.inj (Option.some.inj h)
    obtain ⟨os, after, rfl, rfl, hlen, hlt⟩ := lengths_eq_some hlengths
    have hcut : 2 + os.length + len = (tag :: first :: os).length + len := by
      rw [List.length_cons, List.length_cons]
      omega
    have hwhole : (tag :: first :: (os ++ after)).take (2 + os.length + len) =
        tag :: first :: os ++ after.take len := by
      rw [hcut, ← List.cons_append, ← List.cons_append, List.take_length_add_append]
    have hcontent : (tag :: first :: os ++ after.take len).drop (2 + os.length) = after.take len := by
      refine List.drop_left' ?_
      rw [List.length_cons, List.length_cons]
      omega
    have hlength : (after.take len).length = len := by
      simp only [List.length_cons, List.length_append] at hroom
      rw [List.length_take]
      omega
    rw [hwhole, hcontent]
    refine ⟨by rwa [hlength], ?_, ?_⟩
    · rw [encode, hlength, hlen]
      rfl
    · dsimp only
      rw [hcut, ← List.cons_append, ← List.cons_append, List.drop_length_add_append, List.append_assoc,
        List.take_append_drop]

theorem expect_eq_some_iff : expect tag b = some (content, rest) ↔
    content.length < 256 ^ 3 ∧ b = encode tag content ++ rest := by
  constructor
  · intro h
    obtain ⟨⟨e, r⟩, hnext, h⟩ := Option.bind_eq_some_iff.mp h
    dsimp only at h
    split_ifs at h with htag
    obtain ⟨rfl, rfl⟩ := Prod.mk.inj (Option.some.inj h)
    obtain ⟨hlt, hwhole, hb⟩ := next_eq_some hnext
    exact ⟨hlt, by rw [hb, hwhole, htag]⟩
  · rintro ⟨hlt, rfl⟩
    rw [expect, next_encode hlt]
    exact if_pos rfl

/-! ## Signatures -/

/-- The magnitude of an INTEGER, a zero for zero. -/
def magnitude (n : ℕ) : List UInt8 := if n = 0 then [0] else octets n

theorem octets_eq_nil : octets n = [] ↔ n = 0 := by
  rw [← List.length_eq_zero_iff, ← Nat.le_zero, length_octets_le, pow_zero, Nat.lt_one_iff]

theorem big_magnitude (n : ℕ) : big (magnitude n) = n := by
  unfold magnitude
  split_ifs with h
  · rw [h]
    rfl
  · exact big_octets n

theorem length_magnitude_le {k : ℕ} (hk : 1 ≤ k) : (magnitude n).length ≤ k ↔ n < 256 ^ k := by
  unfold magnitude
  split_ifs with h
  · have := Nat.pow_pos (n := k) (by decide : 0 < 256)
    simp [h, hk, this]
  · exact length_octets_le

theorem and_sign (b : UInt8) : b &&& 0x80 = 0 ↔ ¬0x80 ≤ b := by
  revert b
  decide +kernel

theorem unsigned_encodeInteger (n : ℕ) : unsigned (encodeInteger n) = some (magnitude n) := by
  unfold encodeInteger magnitude
  cases hn : octets n with
  | nil =>
    rw [if_pos (octets_eq_nil.mp hn)]
    decide
  | cons b bs =>
    have hne : n ≠ 0 := fun h0 => by simp [octets_eq_nil.mpr h0] at hn
    have hb : b ≠ 0 := fun h0 => head_octets n (by rw [hn, h0]; rfl)
    rw [if_neg hne]
    dsimp only
    split_ifs with hsign
    · rw [unsigned, if_pos ⟨rfl, by simpa [and_sign] using hsign⟩]
    · rw [unsigned, if_neg (by simp [hb]), if_pos ⟨(and_sign b).mpr hsign, .inr hb⟩]

theorem encodeInteger_big {c : UInt8} (cs : List UInt8) (hc : c ≠ 0) :
    encodeInteger (big (c :: cs)) = (if 0x80 ≤ c then 0 :: c :: cs else c :: cs) ∧
      magnitude (big (c :: cs)) = c :: cs := by
  have hoctets : octets (big (c :: cs)) = c :: cs := octets_big (by simpa using hc)
  have hne : big (c :: cs) ≠ 0 := fun h0 => by simp [octets_eq_nil.mpr h0] at hoctets
  rw [encodeInteger, hoctets, magnitude, if_neg hne]
  exact ⟨rfl, hoctets⟩

theorem unsigned_eq_some (h : unsigned int = some m) : int = encodeInteger (big m) ∧ m = magnitude (big m) := by
  cases int with
  | nil => cases h
  | cons b bs =>
    rw [unsigned] at h
    split_ifs at h with hzero hpos
    · obtain ⟨rfl, hsign⟩ := hzero
      obtain rfl := Option.some.inj h
      cases bs with
      | nil => simp at hsign
      | cons c cs =>
        have hc : 0x80 ≤ c := by simpa [and_sign] using hsign
        have hc0 : c ≠ 0 := by
          rintro rfl
          exact absurd hc (by decide)
        obtain ⟨hint, hmag⟩ := encodeInteger_big cs hc0
        rw [hint, if_pos hc]
        exact ⟨rfl, hmag.symm⟩
    · obtain ⟨hsign, hne⟩ := hpos
      obtain rfl := Option.some.inj h
      by_cases hb : b = 0
      · subst hb
        obtain rfl : bs = [] := hne.resolve_right (not_not_intro rfl)
        exact ⟨by decide, by decide⟩
      · obtain ⟨hint, hmag⟩ := encodeInteger_big bs hb
        rw [hint, if_neg ((and_sign b).mp hsign)]
        exact ⟨rfl, hmag.symm⟩

theorem length_encodeInteger_le (n : ℕ) : (encodeInteger n).length ≤ (octets n).length + 1 := by
  unfold encodeInteger
  cases octets n with
  | nil => simp
  | cons b bs =>
    dsimp only
    split_ifs <;> simp

theorem big_pad (k : ℕ) (bs : List UInt8) : big (List.replicate k 0 ++ bs) = big bs := by
  have hzero : big (List.replicate k 0) = 0 := by
    induction k with
    | zero => rfl
    | succ k ih => rw [List.replicate_succ', big_append, ih, Nat.zero_mul]; rfl
  rw [big_append, hzero, Nat.zero_mul, Nat.zero_add]

/-- A number at the end of 32 bytes. -/
theorem pad_magnitude (h : (magnitude n).length ≤ 32) :
    List.replicate (32 - (magnitude n).length) 0 ++ magnitude n = bigBytes 32 n := by
  have hlen : (List.replicate (32 - (magnitude n).length) 0 ++ magnitude n).length = 32 := by
    rw [List.length_append, List.length_replicate]
    omega
  have hbig := bigBytes_big (List.replicate (32 - (magnitude n).length) 0 ++ magnitude n)
  rw [hlen, big_pad, big_magnitude] at hbig
  exact hbig.symm

theorem half_eq_some_iff {d out : List UInt8} : half d = some (out, rest) ↔
    ∃ n, n < 2 ^ 256 ∧ d = encode 0x02 (encodeInteger n) ++ rest ∧ out = bigBytes 32 n := by
  have hpow : (2 : ℕ) ^ 256 = 256 ^ 32 := by norm_num
  constructor
  · intro h
    obtain ⟨⟨content, r⟩, hexpect, h⟩ := Option.bind_eq_some_iff.mp h
    obtain ⟨int, hint, h⟩ := Option.bind_eq_some_iff.mp h
    split_ifs at h with hlen
    obtain ⟨rfl, rfl⟩ := Prod.mk.inj (Option.some.inj h)
    obtain ⟨-, hd⟩ := expect_eq_some_iff.mp hexpect
    obtain ⟨rfl, hmag⟩ := unsigned_eq_some hint
    rw [hmag] at hlen
    refine ⟨big int, hpow ▸ (length_magnitude_le (by decide)).mp hlen, hd, ?_⟩
    conv_lhs => rw [hmag]
    exact pad_magnitude hlen
  · rintro ⟨n, hn, rfl, rfl⟩
    rw [hpow] at hn
    have hlen : (magnitude n).length ≤ 32 := (length_magnitude_le (by decide)).mpr hn
    have hoctets : (octets n).length ≤ 32 := length_octets_le.mpr hn
    have hcontent : (encodeInteger n).length < 256 ^ 3 := by
      have := length_encodeInteger_le n
      omega
    rw [half, expect_eq_some_iff.mpr ⟨hcontent, rfl⟩]
    simp only [Option.bind_eq_bind, Option.bind_some]
    rw [unsigned_encodeInteger, Option.bind_some, if_pos hlen, pad_magnitude hlen]

theorem length_encode_le {k : ℕ} (h : content.length ≤ k) (hk : k < 256 ^ 3) :
    (encode tag content).length ≤ k + 5 := by
  have hoctets : (octets content.length).length ≤ 3 := length_octets_le.mpr (by omega)
  rw [encode, List.length_cons, List.length_append, encodeLength]
  split_ifs
  · rw [List.length_singleton]
    omega
  · rw [List.length_cons]
    omega

theorem rawSignature_eq_some_iff {der out : List UInt8} : rawSignature der = some out ↔
    ∃ r s, r < 2 ^ 256 ∧ s < 2 ^ 256 ∧ der = encodeSignature r s ∧ out = bigBytes 32 r ++ bigBytes 32 s := by
  constructor
  · intro h
    obtain ⟨⟨content, outer⟩, hexpect, h⟩ := Option.bind_eq_some_iff.mp h
    obtain ⟨⟨rOut, d⟩, hr, h⟩ := Option.bind_eq_some_iff.mp h
    obtain ⟨⟨sOut, d'⟩, hs, h⟩ := Option.bind_eq_some_iff.mp h
    dsimp only at h hr hs
    split_ifs at h with hend
    obtain ⟨rfl, rfl⟩ := hend
    obtain ⟨-, hder⟩ := expect_eq_some_iff.mp hexpect
    obtain ⟨r, hrlt, rfl, rfl⟩ := half_eq_some_iff.mp hr
    obtain ⟨s, hslt, rfl, rfl⟩ := half_eq_some_iff.mp hs
    refine ⟨r, s, hrlt, hslt, ?_, (Option.some.inj h).symm⟩
    rw [hder, encodeSignature, List.append_nil, List.append_nil]
  · rintro ⟨r, s, hr, hs, rfl, rfl⟩
    have hpow : (2 : ℕ) ^ 256 = 256 ^ 32 := by norm_num
    have hlen {n : ℕ} (hn : n < 2 ^ 256) : (encode 0x02 (encodeInteger n)).length ≤ 38 := by
      have hoctets : (octets n).length ≤ 32 := length_octets_le.mpr (hpow ▸ hn)
      have := length_encodeInteger_le n
      exact length_encode_le (k := 33) (by omega) (by decide)
    have hcontent : (encode 0x02 (encodeInteger r) ++ encode 0x02 (encodeInteger s)).length < 256 ^ 3 := by
      have := hlen hr
      have := hlen hs
      rw [List.length_append]
      omega
    have houter : expect 0x30 (encodeSignature r s) = some (_, []) :=
      expect_eq_some_iff.mpr ⟨hcontent, by rw [encodeSignature, List.append_nil]⟩
    have hs' : half (encode 0x02 (encodeInteger s)) = some (bigBytes 32 s, []) :=
      half_eq_some_iff.mpr ⟨s, hs, by rw [List.append_nil], rfl⟩
    rw [rawSignature, houter]
    simp only [Option.bind_eq_bind, Option.bind_some]
    rw [half_eq_some_iff.mpr ⟨r, hr, rfl, rfl⟩]
    simp [hs']

/-- Signatures have one encoding. -/
theorem signature_canonical (der out : List UInt8) :
    (rawSignature der = some out ↔ ∃ r s, r < 2 ^ 256 ∧ s < 2 ^ 256 ∧ der = encodeSignature r s ∧
      out = bigBytes 32 r ++ bigBytes 32 s) ∧
    ∀ der', rawSignature der = some out → rawSignature der' = some out → der = der' := by
  refine ⟨rawSignature_eq_some_iff, fun der' h h' => ?_⟩
  obtain ⟨r, s, hr, hs, rfl, rfl⟩ := rawSignature_eq_some_iff.mp h
  obtain ⟨r', s', hr', hs', rfl, hout⟩ := rawSignature_eq_some_iff.mp h'
  obtain ⟨hrr, hss⟩ := List.append_inj hout (by simp)
  have hpow : (2 : ℕ) ^ 256 = 256 ^ 32 := by norm_num
  rw [hpow] at hr hs hr' hs'
  rw [← big_bigBytes hr, hrr, big_bigBytes hr', ← big_bigBytes hs, hss, big_bigBytes hs']

end Der

end Chatlink.Net
