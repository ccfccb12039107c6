import Chatlink.Net.ShaNi

/-!
# A hash that is fed in pieces

A running hash keeps the state after the whole blocks so far, the bytes of the one that is begun and how many bytes
there were. Padding is fed like any other bytes. A snapshot pads a copy.
-/
namespace Chatlink.Net

open Codec Loops Sha2

/-- The counter wraps, as it does in a release build. -/
structure Sha256 where
  state : State
  block : List UInt8
  filled : ℕ
  total : UInt64

namespace Sha256

/-- Whole blocks on the processor's own instructions where it has them. -/
def compress (ni : Bool) (state : State) (blocks : List UInt8) : State :=
  if ni then compressNi state blocks else (chunksExact 64 blocks).foldl compressScalar state

/-- The hash of nothing so far. -/
def new : Sha256 := ⟨initialState, List.replicate 64 0, 0, 0⟩

/-- `data` over the bytes from `i` on. -/
def copyTo (block : List UInt8) (i : ℕ) (data : List UInt8) : List UInt8 :=
  block.take i ++ data ++ block.drop (i + data.length)

/-- The blocks of `data` and what is left of it, where no block is begun. -/
def updateWhole (ni : Bool) (h : Sha256) (data : List UInt8) : Sha256 :=
  let whole := data.length / 64 * 64
  { h with
    state := compress ni h.state (data.take whole)
    block := copyTo h.block 0 (data.drop whole)
    filled := data.length - whole }

def update (ni : Bool) (h : Sha256) (data : List UInt8) : Sha256 :=
  let h := { h with total := h.total + UInt64.ofNat data.length }
  if 0 < h.filled then
    let take := min (64 - h.filled) data.length
    let h := { h with block := copyTo h.block h.filled (data.take take), filled := h.filled + take }
    if h.filled < 64 then h
    else updateWhole ni { h with state := compress ni h.state h.block, filled := 0 } (data.drop take)
  else updateWhole ni h data

def finish (ni : Bool) (h : Sha256) : List UInt8 :=
  let bits := h.total * 8
  let pad := 0x80 :: List.replicate 63 0
  let h := update ni h (pad.take ((119 - h.filled) % 64 + 1))
  let h := update ni h (le 8 bits.toNat).reverse
  h.state.bytes

/-- The state is not changed: a copy is finished. -/
def snapshot (ni : Bool) (h : Sha256) : List UInt8 := finish ni h

/-- The digest of `data`. -/
def digest (ni : Bool) (data : List UInt8) : List UInt8 := finish ni (update ni new data)

/-! ## What a running hash holds -/

section

variable {ni : Bool} {h : Sha256} {msg data : List UInt8}

/-- The hash after `msg`. -/
structure Holds (h : Sha256) (msg : List UInt8) : Prop where
  state : h.state = absorb initial (msg.take (msg.length / 64 * 64))
  length : h.block.length = 64
  filled : h.filled = msg.length % 64
  block : h.block.take h.filled = msg.drop (msg.length / 64 * 64)
  total : h.total = UInt64.ofNat msg.length

theorem compress_eq (ni : Bool) (state : State) (blocks : List UInt8) :
    compress ni state blocks = absorb state (blocks.take (blocks.length / 64 * 64)) := by
  rw [compress]
  split_ifs
  · exact compressNi_eq state blocks
  · exact scalar_absorb state blocks

theorem compress_whole (ni : Bool) (state : State) {blocks : List UInt8} (hd : 64 ∣ blocks.length) :
    compress ni state blocks = absorb state blocks := by
  rw [compress_eq, Nat.div_mul_cancel hd, List.take_length]

theorem new_holds : Holds new [] := by
  refine ⟨?_, List.length_replicate .., rfl, rfl, rfl⟩
  rw [List.length_nil, List.take_nil, absorb_nil]
  exact initialState_eq

theorem length_copyTo {block : List UInt8} {i : ℕ} (hi : i + data.length ≤ block.length) :
    (copyTo block i data).length = block.length := by
  simp only [copyTo, List.length_append, List.length_take, List.length_drop]
  omega

theorem take_copyTo (data : List UInt8) {block : List UInt8} {i : ℕ} (hi : i ≤ block.length) :
    (copyTo block i data).take (i + data.length) = block.take i ++ data := by
  have hlen : (block.take i ++ data).length = i + data.length := by
    rw [List.length_append, List.length_take, Nat.min_eq_left hi]
  rw [copyTo, ← hlen, List.take_left]

/-- Bytes that start on a block's border. -/
theorem updateWhole_holds (ni : Bool) (hlen : h.block.length = 64) (hd : 64 ∣ msg.length) (hstate : h.state = absorb initial msg)
    (htotal : h.total = UInt64.ofNat (msg ++ data).length) : Holds (updateWhole ni h data) (msg ++ data) := by
  have hwhole : (msg ++ data).length / 64 * 64 = msg.length + data.length / 64 * 64 := by
    rw [List.length_append]
    omega
  have hrest : (data.drop (data.length / 64 * 64)).length = data.length - data.length / 64 * 64 := List.length_drop ..
  refine ⟨?_, ?_, ?_, ?_, htotal⟩
  · rw [updateWhole, hwhole, List.take_length_add_append, absorb_append _ hd, ← hstate]
    exact compress_whole ni _ (by rw [length_whole]; exact Nat.dvd_mul_left 64 _)
  · rw [updateWhole, length_copyTo]
    · exact hlen
    · rw [hrest, hlen]
      omega
  · rw [updateWhole, List.length_append]
    dsimp only
    omega
  · have htake := take_copyTo (data.drop (data.length / 64 * 64)) (Nat.zero_le h.block.length)
    rw [Nat.zero_add, hrest] at htake
    rw [updateWhole, hwhole, List.drop_length_add_append]
    exact htake

/-- A block that is begun and not finished by `data`. -/
theorem begun_holds (hh : Holds h msg) (hfit : h.filled + data.length < 64) :
    Holds { h with block := copyTo h.block h.filled data, filled := h.filled + data.length,
                   total := h.total + UInt64.ofNat data.length } (msg ++ data) := by
  have hfilled := hh.filled
  have hlen := hh.length
  have hwhole : (msg ++ data).length / 64 * 64 = msg.length / 64 * 64 := by
    rw [List.length_append]
    omega
  have hle : msg.length / 64 * 64 ≤ msg.length := Nat.div_mul_le_self _ _
  refine ⟨?_, ?_, ?_, ?_, ?_⟩
  · rw [hwhole, List.take_append_of_le_length hle]
    exact hh.state
  · rw [length_copyTo (by omega)]
    exact hlen
  · rw [List.length_append]
    dsimp only
    omega
  · rw [hwhole, List.drop_append_of_le_length hle, ← hh.block]
    exact take_copyTo data (by omega)
  · rw [List.length_append, UInt64.ofNat_add, ← hh.total]

/-- A block that is begun and finished. -/
theorem finished_block (ni : Bool) (hh : Holds h msg) (hfull : h.filled + data.length = 64) :
    64 ∣ (msg ++ data).length ∧
      compress ni h.state (copyTo h.block h.filled data) = absorb initial (msg ++ data) := by
  have hfilled := hh.filled
  have hlen := hh.length
  have hdvd : 64 ∣ (msg ++ data).length := by
    rw [List.length_append]
    omega
  have hcopy : (copyTo h.block h.filled data).length = 64 := by rw [length_copyTo (by omega), hlen]
  have hblock : copyTo h.block h.filled data = msg.drop (msg.length / 64 * 64) ++ data := by
    have htake := take_copyTo data (show h.filled ≤ h.block.length by omega)
    rw [hfull, ← hcopy, List.take_length] at htake
    rw [htake, hh.block]
  refine ⟨hdvd, ?_⟩
  rw [compress_whole ni _ (by rw [hcopy]), hh.state, hblock,
    ← absorb_append _ (by rw [length_whole]; exact Nat.dvd_mul_left 64 _), ← List.append_assoc, List.take_append_drop]

/-- Feeding bytes is hashing them behind those before. -/
theorem update_holds (ni : Bool) (data : List UInt8) (hh : Holds h msg) : Holds (update ni h data) (msg ++ data) := by
  have hfilled := hh.filled
  have htotal : h.total + UInt64.ofNat data.length = UInt64.ofNat (msg ++ data).length := by
    rw [List.length_append, UInt64.ofNat_add, ← hh.total]
  rw [update]
  dsimp only
  split_ifs with hpos hless
  · have htake : min (64 - h.filled) data.length = data.length := by omega
    rw [htake, List.take_length]
    exact begun_holds hh (by omega)
  · have hlen : (data.take (min (64 - h.filled) data.length)).length = min (64 - h.filled) data.length :=
      List.length_take_of_le (Nat.min_le_right _ _)
    have hfull : h.filled + (data.take (min (64 - h.filled) data.length)).length = 64 := by omega
    obtain ⟨hdvd, hstate⟩ := finished_block ni hh hfull
    have hsplit : msg ++ data.take (min (64 - h.filled) data.length) ++ data.drop (min (64 - h.filled) data.length) =
        msg ++ data := by rw [List.append_assoc, List.take_append_drop]
    rw [← hsplit] at htotal ⊢
    have hblock : (copyTo h.block h.filled (data.take (min (64 - h.filled) data.length))).length = 64 := by
      rw [length_copyTo (by rw [hh.length]; omega), hh.length]
    exact updateWhole_holds ni hblock hdvd hstate htotal
  · have hdvd : 64 ∣ msg.length := by omega
    have hstate := hh.state
    rw [Nat.div_mul_cancel hdvd, List.take_length] at hstate
    exact updateWhole_holds ni (h := { h with total := h.total + UInt64.ofNat data.length }) hh.length hdvd hstate htotal

/-- The padding and the length go in as two more pieces. -/
theorem finish_eq (hh : Holds h msg) (hmsg : msg.length < 2 ^ 61) : finish ni h = Sha2.digest msg := by
  have hfilled := hh.filled
  have hbits : (h.total * 8).toNat = 8 * msg.length := by
    rw [hh.total, UInt64.toNat_mul, UInt64.toNat_ofNat_of_lt' (hmsg.trans (by decide))]
    have height : (8 : UInt64).toNat = 8 := rfl
    rw [height, Nat.mod_eq_of_lt (by omega), Nat.mul_comm]
  have hpad : (0x80 :: List.replicate 63 (0 : UInt8)).take ((119 - h.filled) % 64 + 1) =
      0x80 :: List.replicate (zeros msg.length) 0 := by
    rw [List.take_succ_cons, List.take_replicate, hfilled, zeros, Nat.min_eq_left (by omega)]
  have hend := update_holds ni (le 8 (8 * msg.length)).reverse
    (update_holds ni (0x80 :: List.replicate (zeros msg.length) 0) hh)
  have hstate := hend.state
  rw [List.append_assoc, ← padding, Nat.div_mul_cancel (padded_length msg), List.take_length] at hstate
  rw [finish, hbits, hpad, hstate]
  rfl

end

/-! ## Any order of calls -/

/-- A use of a running hash. -/
inductive Call where
  | update (data : List UInt8)
  | snapshot

/-- What a call leaves, and the digest it returns. -/
def Call.apply (ni : Bool) (h : Sha256) : Call → Sha256 × List (List UInt8)
  | .update data => (h.update ni data, [])
  | .snapshot => (h, [h.snapshot ni])

/-- The hash after calls, and the digests they returned. -/
def run (ni : Bool) (h : Sha256) : List Call → Sha256 × List (List UInt8)
  | [] => (h, [])
  | c :: cs =>
    let r := c.apply ni h
    let rest := run ni r.1 cs
    (rest.1, r.2 ++ rest.2)

def Call.fed : Call → List UInt8
  | .update data => data
  | .snapshot => []

/-- The bytes that calls feed. -/
def fed (cs : List Call) : List UInt8 := cs.flatMap Call.fed

/-- The digests of the bytes up to each snapshot, where `msg` came before. -/
def digests (msg : List UInt8) : List Call → List (List UInt8)
  | [] => []
  | .update data :: cs => digests (msg ++ data) cs
  | .snapshot :: cs => Sha2.digest msg :: digests msg cs

theorem apply_holds (ni : Bool) {h : Sha256} {msg : List UInt8} (hh : Holds h msg) (c : Call) :
    Holds (c.apply ni h).1 (msg ++ c.fed) := by
  cases c with
  | update data => exact update_holds ni data hh
  | snapshot => rwa [Call.fed, List.append_nil]

theorem run_holds (ni : Bool) {h : Sha256} {msg : List UInt8} (hh : Holds h msg) (cs : List Call)
    (hlen : (msg ++ fed cs).length < 2 ^ 61) :
    Holds (run ni h cs).1 (msg ++ fed cs) ∧ (run ni h cs).2 = digests msg cs := by
  induction cs generalizing h msg with
  | nil => exact ⟨by rwa [fed, List.flatMap_nil, List.append_nil], rfl⟩
  | cons c cs ih =>
    rw [fed, List.flatMap_cons, ← List.append_assoc, ← fed] at hlen ⊢
    obtain ⟨hend, hout⟩ := ih (apply_holds ni hh c) hlen
    refine ⟨hend, ?_⟩
    rw [run]
    dsimp only
    rw [hout]
    cases c with
    | update data => rfl
    | snapshot =>
      have hmsg : msg.length < 2 ^ 61 := by
        rw [List.length_append, List.length_append] at hlen
        omega
      rw [Call.fed, List.append_nil, Call.apply, digests, snapshot, finish_eq hh hmsg]
      rfl

/-- However a message is split and wherever it is looked at between, the digests are the standard's. -/
theorem fed_in_pieces (ni : Bool) (calls : List Call) (hlen : (fed calls).length < 2 ^ 61) :
    (run ni new calls).2 = digests [] calls ∧ (run ni new calls).1.finish ni = Sha2.digest (fed calls) := by
  obtain ⟨hend, hout⟩ := run_holds ni new_holds calls hlen
  exact ⟨hout, finish_eq hend hlen⟩

theorem fed_in_pieces_abc : (run true new [.update [0x61], .snapshot, .update [0x62, 0x63]]).2 = [Sha2.digest [0x61]] ∧
    (run true new [.update [0x61], .snapshot, .update [0x62, 0x63]]).1.finish true = Sha2.digest [0x61, 0x62, 0x63] :=
  fed_in_pieces true [.update [0x61], .snapshot, .update [0x62, 0x63]] (by decide)

theorem digest_eq (ni : Bool) {msg : List UInt8} (hmsg : msg.length < 2 ^ 61) : digest ni msg = Sha2.digest msg :=
  finish_eq (update_holds ni msg new_holds) hmsg

@[simp] theorem length_finish (ni : Bool) (h : Sha256) : (finish ni h).length = 32 := by
  simp [finish, State.bytes]

end Sha256

end Chatlink.Net
