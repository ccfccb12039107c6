import Chatlink.Net.Chain
import Chatlink.Net.Hashing
import Chatlink.Net.Peer

/-!
# Keyed hashing and key expansion

A code hashes the message behind one pad of the key and that hash behind another. An expansion chains codes. They are
the functions of their standards, and those the records' keys are made with.
-/
namespace Chatlink.Net

open Codec Loops

/-- A code under a key whose pads are hashed already. -/
structure Hmac where
  inner : Sha256
  outer : Sha256

namespace Hmac

def new (ni : Bool) (key : List UInt8) : Hmac :=
  let zeros := List.replicate 64 (0 : UInt8)
  let k := if 64 < key.length then Sha256.copyTo zeros 0 (Sha256.digest ni key) else Sha256.copyTo zeros 0 key
  ⟨Sha256.new.update ni (k.map (· ^^^ 0x36)), Sha256.new.update ni (k.map (· ^^^ 0x5c))⟩

def update (ni : Bool) (h : Hmac) (data : List UInt8) : Hmac := { h with inner := h.inner.update ni data }

def finish (ni : Bool) (h : Hmac) : List UInt8 := (h.outer.update ni (h.inner.finish ni)).finish ni

def mac (ni : Bool) (key data : List UInt8) : List UInt8 := ((new ni key).update ni data).finish ni

end Hmac

def hkdfExtract (ni : Bool) (salt ikm : List UInt8) : List UInt8 := Hmac.mac ni salt ikm

/-- One block of an expansion, behind what is out already. -/
def hkdfStep (ni : Bool) (prk : List UInt8) (info : List (List UInt8)) (len : ℕ) (o : List UInt8 × List UInt8)
    (i : ℕ) : List UInt8 × List UInt8 :=
  let h := Hmac.new ni prk
  let h := if 0 < i then h.update ni o.2 else h
  let h := info.foldl (Hmac.update ni) h
  let h := h.update ni [UInt8.ofNat i + 1]
  let t := h.finish ni
  (o.1 ++ t.take (min 32 (len - 32 * i)), t)

/-- `len` bytes of an expansion; more than 255 blocks panic. -/
def hkdfExpandInto (ni : Bool) (prk : List UInt8) (info : List (List UInt8)) (len : ℕ) : Option (List UInt8) :=
  if len ≤ 255 * 32 then
    some ((List.range (len ⌈/⌉ 32)).foldl (hkdfStep ni prk info len) ([], List.replicate 32 0)).1
  else none

/-! ## Codes -/

section

variable {ni : Bool} {h : Hmac} {key msg : List UInt8}

/-- The code after `msg` under `key`. -/
structure Hmac.Holds (h : Hmac) (key msg : List UInt8) : Prop where
  inner : h.inner.Holds ((Sha2.keyBlock Sha2.digest 64 key).map (· ^^^ 0x36) ++ msg)
  outer : h.outer.Holds ((Sha2.keyBlock Sha2.digest 64 key).map (· ^^^ 0x5c))

theorem copyTo_zeros (k : List UInt8) :
    Sha256.copyTo (List.replicate 64 0) 0 k = k ++ List.replicate (64 - k.length) 0 := by
  rw [Sha256.copyTo, List.take_zero, List.nil_append, List.drop_replicate, Nat.zero_add]

theorem Hmac.new_holds (ni : Bool) (hkey : key.length < 2 ^ 61) : (Hmac.new ni key).Holds key [] := by
  have hk : (if 64 < key.length then Sha256.copyTo (List.replicate 64 0) 0 (Sha256.digest ni key)
      else Sha256.copyTo (List.replicate 64 0) 0 key) = Sha2.keyBlock Sha2.digest 64 key := by
    rw [Sha2.keyBlock]
    split_ifs with hlong hshort
    · exact absurd hlong (not_lt.mpr hshort)
    · rw [copyTo_zeros, Sha256.digest_eq ni hkey]
    · rw [copyTo_zeros]
    · exact absurd (not_lt.mp hlong) ‹_›
  refine ⟨?_, ?_⟩
  · rw [Hmac.new, hk, List.append_nil]
    exact Sha256.update_holds ni _ Sha256.new_holds
  · rw [Hmac.new, hk]
    exact Sha256.update_holds ni _ Sha256.new_holds

theorem Hmac.Holds.update (ni : Bool) (hh : h.Holds key msg) (data : List UInt8) : (h.update ni data).Holds key (msg ++ data) := by
  refine ⟨?_, hh.outer⟩
  rw [← List.append_assoc]
  exact Sha256.update_holds ni data hh.inner

theorem Hmac.Holds.updates (ni : Bool) (hh : h.Holds key msg) (parts : List (List UInt8)) :
    (parts.foldl (Hmac.update ni) h).Holds key (msg ++ parts.flatten) := by
  induction parts generalizing h msg with
  | nil => rwa [List.flatten_nil, List.append_nil]
  | cons part parts ih =>
    rw [List.flatten_cons, ← List.append_assoc]
    exact ih (hh.update ni part)

theorem length_keyBlock (key : List UInt8) : (Sha2.keyBlock Sha2.digest 64 key).length = 64 := by
  rw [Sha2.keyBlock]
  split_ifs with h
  · rw [List.length_append, List.length_replicate]
    omega
  · simp

theorem Hmac.finish_eq (ni : Bool) (hh : h.Holds key msg) (hmsg : msg.length + 64 < 2 ^ 61) :
    h.finish ni = Sha2.hmac Sha2.digest 64 key msg := by
  have hinner : h.inner.finish ni = Sha2.digest ((Sha2.keyBlock Sha2.digest 64 key).map (· ^^^ 0x36) ++ msg) := by
    apply Sha256.finish_eq hh.inner
    rw [List.length_append, List.length_map, length_keyBlock]
    omega
  rw [Hmac.finish, hinner, Sha2.hmac]
  apply Sha256.finish_eq (Sha256.update_holds ni _ hh.outer)
  rw [List.length_append, List.length_map, length_keyBlock, Sha2.length_digest]
  decide

/-- A message in pieces under a key of any length. -/
theorem hmac_in_pieces (ni : Bool) (key : List UInt8) (parts : List (List UInt8)) (hkey : key.length < 2 ^ 61)
    (hparts : parts.flatten.length + 64 < 2 ^ 61) :
    (parts.foldl (Hmac.update ni) (Hmac.new ni key)).finish ni = Sha2.hmac Sha2.digest 64 key parts.flatten := by
  have h := (Hmac.new_holds ni hkey).updates ni parts
  rw [List.nil_append] at h
  exact Hmac.finish_eq ni h hparts

theorem hmac_in_pieces_hi : ([[0x48], [0x69]].foldl (Hmac.update true) (Hmac.new true [0x0b])).finish true =
    Sha2.hmac Sha2.digest 64 [0x0b] [0x48, 0x69] :=
  hmac_in_pieces true [0x0b] [[0x48], [0x69]] (by decide) (by decide)

theorem mac_eq (ni : Bool) (hkey : key.length < 2 ^ 61) (hmsg : msg.length + 64 < 2 ^ 61) :
    Hmac.mac ni key msg = Sha2.hmac Sha2.digest 64 key msg :=
  Hmac.finish_eq ni ((Hmac.new_holds ni hkey).update ni msg) hmsg

end

/-! ## Expansions -/

/-- Primitives with the hashes of this program. -/
def Crypto.hashed (ni : Bool) (c : Crypto) : Crypto := { c with sha256 := Sha256.digest ni, hmac := Hmac.mac ni }

section

variable {ni : Bool} {prk : List UInt8} {info : List (List UInt8)}

theorem length_expansion (prk info : List UInt8) (i : ℕ) :
    (Sha2.expansion Sha2.digest 64 prk info i).length ≤ 32 := by
  cases i with
  | zero => exact Nat.zero_le _
  | succ i => exact (Sha2.length_digest _).le

/-- The blocks `i + 1` up to `i + n` of an expansion. -/
def expansions (prk info : List UInt8) (i n : ℕ) : List UInt8 :=
  ((List.range' i n).map fun i => Sha2.expansion Sha2.digest 64 prk info (i + 1)).flatten

theorem length_expansions (prk info : List UInt8) (n : ℕ) : (expansions prk info 0 n).length = 32 * n := by
  have hrow : ∀ r ∈ (List.range' 0 n).map fun i => Sha2.expansion Sha2.digest 64 prk info (i + 1), r.length = 32 := by
    intro r hr
    obtain ⟨i, -, rfl⟩ := List.mem_map.mp hr
    exact Sha2.length_digest _
  rw [expansions, length_flatten_of_length hrow, List.length_map, List.length_range']

theorem hkdfStep_eq (hprk : prk.length < 2 ^ 61) (hinfo : info.flatten.length + 97 < 2 ^ 61) {len i : ℕ}
    {o : List UInt8 × List UInt8} (ho : 0 < i → o.2 = Sha2.expansion Sha2.digest 64 prk info.flatten i) :
    hkdfStep ni prk info len o i =
      (o.1 ++ (Sha2.expansion Sha2.digest 64 prk info.flatten (i + 1)).take (len - 32 * i),
        Sha2.expansion Sha2.digest 64 prk info.flatten (i + 1)) := by
  have hbefore : (if 0 < i then (Hmac.new ni prk).update ni o.2 else Hmac.new ni prk).Holds prk
      (Sha2.expansion Sha2.digest 64 prk info.flatten i) := by
    split_ifs with hi
    · rw [ho hi]
      exact (Hmac.new_holds ni hprk).update ni _
    · obtain rfl : i = 0 := by omega
      exact Hmac.new_holds ni hprk
  have hall := (hbefore.updates ni info).update ni [UInt8.ofNat i + 1]
  have hle := length_expansion prk info.flatten i
  have ht := Hmac.finish_eq ni hall (by
    simp only [List.length_append, List.length_cons, List.length_nil]
    omega)
  have hcount : UInt8.ofNat i + 1 = UInt8.ofNat (i + 1) := (UInt8.ofNat_add i 1).symm
  have hcode : Sha2.hmac Sha2.digest 64 prk
      (Sha2.expansion Sha2.digest 64 prk info.flatten i ++ info.flatten ++ [UInt8.ofNat (i + 1)]) =
        Sha2.expansion Sha2.digest 64 prk info.flatten (i + 1) := rfl
  rw [hkdfStep, ht, hcount, hcode]
  have htake : ∀ n, (Sha2.expansion Sha2.digest 64 prk info.flatten (i + 1)).take (min 32 n) =
      (Sha2.expansion Sha2.digest 64 prk info.flatten (i + 1)).take n := by
    intro n
    rw [List.take_eq_take_iff, Sha2.expansion, Sha2.hmac, Sha2.length_digest]
    omega
  rw [htake]

theorem hkdf_loop (hprk : prk.length < 2 ^ 61) (hinfo : info.flatten.length + 97 < 2 ^ 61) (len n : ℕ) :
    ((List.range n).foldl (hkdfStep ni prk info len) ([], List.replicate 32 0)).1 =
      (expansions prk info.flatten 0 n).take len := by
  have hloop : ((List.range n).foldl (hkdfStep ni prk info len) ([], List.replicate 32 0)).1 =
      (expansions prk info.flatten 0 n).take len ∧
        (0 < n → ((List.range n).foldl (hkdfStep ni prk info len) ([], List.replicate 32 0)).2 =
          Sha2.expansion Sha2.digest 64 prk info.flatten n) := by
    refine foldl_range (P := fun i (o : List UInt8 × List UInt8) => o.1 = (expansions prk info.flatten 0 i).take len ∧
      (0 < i → o.2 = Sha2.expansion Sha2.digest 64 prk info.flatten i)) ⟨List.take_nil.symm, fun h => absurd h (Nat.lt_irrefl 0)⟩ ?_
    intro i _ o ho
    rw [hkdfStep_eq hprk hinfo ho.2]
    refine ⟨?_, fun _ => rfl⟩
    have hnext : expansions prk info.flatten 0 (i + 1) =
        expansions prk info.flatten 0 i ++ Sha2.expansion Sha2.digest 64 prk info.flatten (i + 1) := by
      rw [expansions, List.range'_concat, List.map_append, List.flatten_append, ← expansions, Nat.zero_add, Nat.one_mul]
      simp
    rw [ho.1, hnext, List.take_append, length_expansions]
  exact hloop.1

/-- The expansion the records' keys are made with, block by block. -/
theorem hkdfBlocks_eq (c : Crypto) (hprk : prk.length < 2 ^ 61) {ctx : List UInt8} (hctx : ctx.length + 97 < 2 ^ 61)
    (n i : ℕ) : hkdfBlocks (c.hashed ni) prk ctx n i (Sha2.expansion Sha2.digest 64 prk ctx i) =
      expansions prk ctx i n := by
  induction n generalizing i with
  | zero => rfl
  | succ n ih =>
    have hle := length_expansion prk ctx i
    have ht : (c.hashed ni).hmac prk (Sha2.expansion Sha2.digest 64 prk ctx i ++ ctx ++ [UInt8.ofNat (i + 1)]) =
        Sha2.expansion Sha2.digest 64 prk ctx (i + 1) := mac_eq ni hprk (by
      simp only [List.length_append, List.length_cons, List.length_nil]
      omega)
    rw [hkdfBlocks, ht, ih, expansions, expansions, List.range'_succ]
    rfl

/-- An expansion is the standard's and the one the records' keys are made with; a longer one panics. -/
theorem hkdf_expands (ni : Bool) (c : Crypto) (prk : List UInt8) (info : List (List UInt8)) (len : ℕ)
    (hprk : prk.length < 2 ^ 61) (hinfo : info.flatten.length + 97 < 2 ^ 61) :
    hkdfExpandInto ni prk info len =
        (if len ≤ 255 * 32 then some (Sha2.expand Sha2.digest 64 prk info.flatten len) else none) ∧
      hkdfExpand (c.hashed ni) prk info.flatten len = Sha2.expand Sha2.digest 64 prk info.flatten len := by
  have hexpand : Sha2.expand Sha2.digest 64 prk info.flatten len =
      (expansions prk info.flatten 0 (len ⌈/⌉ 32)).take len := by
    rw [Sha2.expand, expansions, List.range_eq_range']
  refine ⟨?_, ?_⟩
  · rw [hkdfExpandInto, hkdf_loop hprk hinfo, hexpand]
  · rw [hkdfExpand, hexpand, Nat.ceilDiv_eq_add_pred_div]
    exact congrArg (List.take len) (hkdfBlocks_eq c hprk hinfo _ 0)

theorem hkdf_expands_two :
    hkdfExpandInto true [0x0b] [[1], [2]] 42 =
        (if 42 ≤ 255 * 32 then some (Sha2.expand Sha2.digest 64 [0x0b] [1, 2] 42) else none) ∧
      hkdfExpand (Renewed.crypto.hashed true) [0x0b] [1, 2] 42 = Sha2.expand Sha2.digest 64 [0x0b] [1, 2] 42 :=
  hkdf_expands true Renewed.crypto [0x0b] [[1], [2]] 42 (by decide) (by decide)

end

end Chatlink.Net
