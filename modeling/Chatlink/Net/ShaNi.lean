import Chatlink.Net.Sha256

/-!
# The compression on vector registers

A register holds four words, the first in its lowest bytes. The instructions are taken as the processor's manual
defines them. The loop keeps the chaining state in two registers, the words of four rounds in one of four more, and in
the other three those of the next rounds, finished or half made.
-/
namespace Chatlink.Net.Sha256

open Codec Loops Sha2

/-- A register of 128 bits as four words, the lowest first. -/
structure M128i where
  l0 : UInt32
  l1 : UInt32
  l2 : UInt32
  l3 : UInt32
  deriving DecidableEq

namespace M128i

def lane (v : M128i) : ℕ → UInt32
  | 0 => v.l0
  | 1 => v.l1
  | 2 => v.l2
  | _ => v.l3

def bytes (v : M128i) : List UInt8 := le 4 v.l0.toNat ++ le 4 v.l1.toNat ++ le 4 v.l2.toNat ++ le 4 v.l3.toNat

/-- The register that the first sixteen of `bs` fill. -/
def ofBytes (bs : List UInt8) : M128i :=
  let w := fun i => UInt32.ofNat (ofLe ((bs.drop (4 * i)).take 4))
  ⟨w 0, w 1, w 2, w 3⟩

/-! ## Instructions -/

/-- Two halves, the higher one first. -/
def setEpi64x (e1 e0 : ℕ) : M128i := ofBytes (le 8 e0 ++ le 8 e1)

def addEpi32 (a b : M128i) : M128i := ⟨a.l0 + b.l0, a.l1 + b.l1, a.l2 + b.l2, a.l3 + b.l3⟩

/-- Each lane is the one that two bits of `imm` name. -/
def shuffleEpi32 (imm : ℕ) (a : M128i) : M128i :=
  ⟨a.lane (imm % 4), a.lane (imm / 4 % 4), a.lane (imm / 16 % 4), a.lane (imm / 64 % 4)⟩

/-- Each byte is the one that a byte of `b` names, or zero where that byte's highest bit is set. -/
def shuffleEpi8 (a b : M128i) : M128i :=
  ofBytes (b.bytes.map fun m => if m.toNat.testBit 7 then 0 else a.bytes.getD (m.toNat % 16) 0)

/-- The sixteen bytes from the `n`th on of `b` with `a` above it. -/
def alignrEpi8 (n : ℕ) (a b : M128i) : M128i := ofBytes ((b.bytes ++ a.bytes).drop n)

/-- Each pair of bytes is that of `b` where its bit of `imm` is set and that of `a` elsewhere. -/
def blendEpi16 (imm : ℕ) (a b : M128i) : M128i :=
  ofBytes ((List.range 16).map fun i => if imm.testBit (i / 2) then b.bytes.getD i 0 else a.bytes.getD i 0)

/-- A round whose constant is added to its word already. -/
def wkRound (wk : UInt32) (s : State) : State :=
  let t := ch s.e s.f s.g + bigSigma1 s.e + wk + s.h
  ⟨t + maj s.a s.b s.c + bigSigma0 s.a, s.a, s.b, s.c, t + s.d, s.e, s.f, s.g⟩

/-- Two rounds on the state in `a` (C, D, G, H from the top) and `b` (A, B, E, F). -/
def sha256rnds2 (a b k : M128i) : M128i :=
  let s := wkRound k.l1 (wkRound k.l0 ⟨b.l3, b.l2, a.l3, a.l2, b.l1, b.l0, a.l1, a.l0⟩)
  ⟨s.f, s.e, s.b, s.a⟩

def sha256msg1 (a b : M128i) : M128i :=
  ⟨a.l0 + smallSigma0 a.l1, a.l1 + smallSigma0 a.l2, a.l2 + smallSigma0 a.l3, a.l3 + smallSigma0 b.l0⟩

def sha256msg2 (a b : M128i) : M128i :=
  let w16 := a.l0 + smallSigma1 b.l2
  let w17 := a.l1 + smallSigma1 b.l3
  ⟨w16, w17, a.l2 + smallSigma1 w16, a.l3 + smallSigma1 w17⟩

end M128i

open M128i

/-- The registers of the loop over the rounds. -/
structure NiRounds where
  abef : M128i
  cdgh : M128i
  m : Fin 4 → M128i

/-- Four constants from `4 * r` on. -/
def loadK (r : ℕ) : M128i := ⟨K.getD (4 * r) 0, K.getD (4 * r + 1) 0, K.getD (4 * r + 2) 0, K.getD (4 * r + 3) 0⟩

def swap : M128i := setEpi64x 0x0c0d0e0f08090a0b 0x0405060700010203

/-- The words the body of the loop prepares for later rounds. -/
def niWords (m : Fin 4 → M128i) (r : ℕ) : Fin 4 → M128i :=
  let m :=
    if 3 ≤ r ∧ r < 15 then
      let next := addEpi32 (m (Fin.ofNat 4 (r + 1))) (alignrEpi8 4 (m (Fin.ofNat 4 r)) (m (Fin.ofNat 4 (r + 3))))
      Function.update m (Fin.ofNat 4 (r + 1)) (sha256msg2 next (m (Fin.ofNat 4 r)))
    else m
  if 1 ≤ r ∧ r < 13 then
    Function.update m (Fin.ofNat 4 (r + 3)) (sha256msg1 (m (Fin.ofNat 4 (r + 3))) (m (Fin.ofNat 4 r)))
  else m

/-- The body of the loop. -/
def niStep (v : NiRounds) (r : ℕ) : NiRounds :=
  let mk := addEpi32 (v.m (Fin.ofNat 4 r)) (loadK r)
  let cdgh := sha256rnds2 v.cdgh v.abef mk
  let abef := sha256rnds2 v.abef cdgh (shuffleEpi32 0x0e mk)
  ⟨abef, cdgh, niWords v.m r⟩

/-- One block. -/
def niBlock (v : M128i × M128i) (block : List UInt8) : M128i × M128i :=
  let m := fun i : Fin 4 => shuffleEpi8 (ofBytes (block.drop (16 * i.val))) swap
  let w := (List.range 16).foldl niStep ⟨v.1, v.2, m⟩
  (addEpi32 w.abef v.1, addEpi32 w.cdgh v.2)

def compressNi (state : State) (blocks : List UInt8) : State :=
  let lo : M128i := ⟨state.a, state.b, state.c, state.d⟩
  let hi : M128i := ⟨state.e, state.f, state.g, state.h⟩
  let dcba := shuffleEpi32 0xb1 lo
  let hgfe := shuffleEpi32 0x1b hi
  let v := (chunksExact 64 blocks).foldl niBlock (alignrEpi8 8 dcba hgfe, blendEpi16 0xf0 hgfe dcba)
  let feba := shuffleEpi32 0x1b v.1
  let dchg := shuffleEpi32 0xb1 v.2
  let lo := blendEpi16 0xf0 feba dchg
  let hi := alignrEpi8 8 dchg feba
  ⟨lo.l0, lo.l1, lo.l2, lo.l3, hi.l0, hi.l1, hi.l2, hi.l3⟩

/-! ## What the instructions do to lanes -/

theorem ofNat_ofLe_le (w : UInt32) : UInt32.ofNat (ofLe (le 4 w.toNat)) = w := by
  rw [ofLe_le_of_lt w.toNat_lt, UInt32.ofNat_toNat]

/-- Four words in a row fill a register. -/
theorem ofBytes_lanes (a b c d : UInt32) (rest : List UInt8) :
    ofBytes (le 4 a.toNat ++ (le 4 b.toNat ++ (le 4 c.toNat ++ (le 4 d.toNat ++ rest)))) = ⟨a, b, c, d⟩ := by
  have h : ofBytes (le 4 a.toNat ++ (le 4 b.toNat ++ (le 4 c.toNat ++ (le 4 d.toNat ++ rest)))) =
      ⟨UInt32.ofNat (ofLe (le 4 a.toNat)), UInt32.ofNat (ofLe (le 4 b.toNat)), UInt32.ofNat (ofLe (le 4 c.toNat)),
        UInt32.ofNat (ofLe (le 4 d.toNat))⟩ := rfl
  rw [h, ofNat_ofLe_le, ofNat_ofLe_le, ofNat_ofLe_le, ofNat_ofLe_le]

theorem alignrEpi8_four (a b : M128i) : alignrEpi8 4 a b = ⟨b.l1, b.l2, b.l3, a.l0⟩ :=
  ofBytes_lanes b.l1 b.l2 b.l3 a.l0 (le 4 a.l1.toNat ++ (le 4 a.l2.toNat ++ le 4 a.l3.toNat))

theorem alignrEpi8_eight (a b : M128i) : alignrEpi8 8 a b = ⟨b.l2, b.l3, a.l0, a.l1⟩ :=
  ofBytes_lanes b.l2 b.l3 a.l0 a.l1 (le 4 a.l2.toNat ++ le 4 a.l3.toNat)

theorem blendEpi16_high (a b : M128i) : blendEpi16 0xf0 a b = ⟨a.l0, a.l1, b.l2, b.l3⟩ :=
  ofBytes_lanes a.l0 a.l1 b.l2 b.l3 []

/-- Four bytes are those of the word they spell. -/
theorem le_ofNat_ofLe {bs : List UInt8} (h : bs.length = 4) : le 4 (UInt32.ofNat (ofLe bs)).toNat = bs := by
  have hlt := ofLe_lt bs
  rw [h] at hlt
  have hword : (UInt32.ofNat (ofLe bs)).toNat = ofLe bs := UInt32.toNat_ofNat_of_lt' hlt
  rw [hword, le_ofLe h.le, h, Nat.sub_self, List.replicate_zero, List.append_nil]

theorem bytes_ofBytes {bs : List UInt8} (h : 16 ≤ bs.length) : (ofBytes bs).bytes = bs.take 16 := by
  have hlane : ∀ i, 4 * i + 4 ≤ bs.length →
      le 4 (UInt32.ofNat (ofLe ((bs.drop (4 * i)).take 4))).toNat = (bs.drop (4 * i)).take 4 := by
    intro i hi
    apply le_ofNat_ofLe
    rw [List.length_take, List.length_drop]
    omega
  rw [bytes, ofBytes]
  dsimp only
  rw [hlane 0 (by omega), hlane 1 (by omega), hlane 2 (by omega), hlane 3 (by omega), show 16 = 4 + 4 + 4 + 4 by rfl,
    List.take_add, List.take_add, List.take_add]
  rfl

theorem take_four {xs : List UInt8} {n : ℕ} (h : n + 4 ≤ xs.length) :
    (xs.drop n).take 4 = [xs.getD n 0, xs.getD (n + 1) 0, xs.getD (n + 2) 0, xs.getD (n + 3) 0] := by
  rw [List.drop_eq_getElem_cons (by omega), List.drop_eq_getElem_cons (by omega), List.drop_eq_getElem_cons (by omega),
    List.drop_eq_getElem_cons (by omega), List.getD_eq_getElem _ _ (by omega), List.getD_eq_getElem _ _ (by omega),
    List.getD_eq_getElem _ _ (by omega), List.getD_eq_getElem _ _ (by omega)]
  rfl

theorem swap_bytes : swap.bytes = [3, 2, 1, 0, 7, 6, 5, 4, 11, 10, 9, 8, 15, 14, 13, 12] := by decide

/-- The shuffle of a load puts the highest byte of each word first. -/
theorem shuffleEpi8_swap {bs : List UInt8} (h : 16 ≤ bs.length) :
    shuffleEpi8 (ofBytes bs) swap =
      ⟨ofBe (bs.take 4), ofBe ((bs.drop 4).take 4), ofBe ((bs.drop 8).take 4), ofBe ((bs.drop 12).take 4)⟩ := by
  have hget : ∀ i < 16, (bs.take 16).getD i 0 = bs.getD i 0 := by
    intro i hi
    rw [List.getD_eq_getElem?_getD, List.getD_eq_getElem?_getD, List.getElem?_take_of_lt hi]
  have hlow : ∀ m ∈ swap.bytes, m.toNat < 2 ^ 7 := by
    rw [swap_bytes]
    simp
  have hlist : (swap.bytes.map fun m => if m.toNat.testBit 7 then 0 else (bs.take 16).getD (m.toNat % 16) 0) =
      ((bs.drop 0).take 4).reverse ++ (((bs.drop 4).take 4).reverse ++ (((bs.drop 8).take 4).reverse ++
        (((bs.drop 12).take 4).reverse ++ []))) := by
    have hmask : ∀ m ∈ swap.bytes,
        (if m.toNat.testBit 7 then 0 else (bs.take 16).getD (m.toNat % 16) 0) = bs.getD (m.toNat % 16) 0 := by
      intro m hm
      rw [Nat.testBit_lt_two_pow (hlow m hm), if_neg Bool.false_ne_true, hget _ (Nat.mod_lt _ (by decide))]
    rw [List.map_congr_left hmask, swap_bytes, take_four (by omega), take_four (by omega), take_four (by omega),
      take_four (by omega)]
    rfl
  have hrev : ∀ n, n + 4 ≤ bs.length → le 4 (ofBe ((bs.drop n).take 4)).toNat = ((bs.drop n).take 4).reverse := by
    intro n hn
    rw [ofBe, le_ofNat_ofLe]
    rw [List.length_reverse, List.length_take, List.length_drop]
    omega
  rw [shuffleEpi8, bytes_ofBytes h, hlist, ← hrev 0 (by omega), ← hrev 4 (by omega), ← hrev 8 (by omega),
    ← hrev 12 (by omega), ofBytes_lanes]
  rfl

/-! ## The chaining state in two registers -/

def packA (s : State) : M128i := ⟨s.f, s.e, s.b, s.a⟩

def packC (s : State) : M128i := ⟨s.h, s.g, s.d, s.c⟩

theorem wkRound_eq (k w : UInt32) (s : State) : wkRound (w + k) s = round k w s := by
  have ht : ch s.e s.f s.g + bigSigma1 s.e + (w + k) + s.h = s.h + bigSigma1 s.e + ch s.e s.f s.g + k + w := by ac_rfl
  rw [wkRound, Sha2.round, ht, UInt32.add_assoc (_ + w), UInt32.add_comm (maj _ _ _), UInt32.add_comm _ s.d]

theorem sha256rnds2_eq (k₀ k₁ w₀ w₁ x y : UInt32) (s : State) :
    sha256rnds2 (packC s) (packA s) ⟨w₀ + k₀, w₁ + k₁, x, y⟩ = packA (round k₁ w₁ (round k₀ w₀ s)) := by
  rw [← wkRound_eq, ← wkRound_eq]
  rfl

/-- The other two lanes. After two rounds the one half of the state is what the other one was. -/
theorem sha256rnds2_high (k₀ k₁ k₂ k₃ w₀ w₁ w₂ w₃ : UInt32) (s : State) :
    sha256rnds2 (packA s) (packA (round k₁ w₁ (round k₀ w₀ s)))
      (shuffleEpi32 0x0e ⟨w₀ + k₀, w₁ + k₁, w₂ + k₂, w₃ + k₃⟩) =
        packA (round k₃ w₃ (round k₂ w₂ (round k₁ w₁ (round k₀ w₀ s)))) :=
  sha256rnds2_eq k₂ k₃ w₂ w₃ (w₀ + k₀) (w₀ + k₀) (round k₁ w₁ (round k₀ w₀ s))

/-! ## The schedule, four words at a time -/

section

variable {w : ℕ → UInt32}

/-- Each word of a schedule from the sixteenth on comes from the ones before it. -/
def Recurs (w : ℕ → UInt32) : Prop :=
  ∀ t < 48, w (t + 16) = smallSigma1 (w (t + 14)) + w (t + 9) + smallSigma0 (w (t + 1)) + w t

def quad (w : ℕ → UInt32) (j : ℕ) : M128i := ⟨w (4 * j), w (4 * j + 1), w (4 * j + 2), w (4 * j + 3)⟩

/-- What `sha256msg1` makes of the words four and three registers back. -/
def half (w : ℕ → UInt32) (j : ℕ) : M128i := sha256msg1 (quad w (j - 4)) (quad w (j - 3))

/-- Four words from the registers before. The third and fourth take the first and second of their own. -/
theorem sha256msg2_eq {a b c d r : M128i} (h₀ : r.l0 = smallSigma1 d.l2 + c.l1 + smallSigma0 a.l1 + a.l0)
    (h₁ : r.l1 = smallSigma1 d.l3 + c.l2 + smallSigma0 a.l2 + a.l1)
    (h₂ : r.l2 = smallSigma1 r.l0 + c.l3 + smallSigma0 a.l3 + a.l2)
    (h₃ : r.l3 = smallSigma1 r.l1 + d.l0 + smallSigma0 b.l0 + a.l3) :
    sha256msg2 (addEpi32 (sha256msg1 a b) (alignrEpi8 4 d c)) d = r := by
  have hsum : ∀ s c t a : UInt32, a + t + c + s = s + c + t + a := by
    intro s c t a
    ac_rfl
  have h₀' := (hsum _ _ _ _).trans h₀.symm
  have h₁' := (hsum _ _ _ _).trans h₁.symm
  have h₂' := (hsum _ _ _ _).trans h₂.symm
  have h₃' := (hsum _ _ _ _).trans h₃.symm
  simp only [alignrEpi8_four, sha256msg2, sha256msg1, addEpi32, h₀', h₁', h₂', h₃']

theorem quad_step (hw : Recurs w) {j : ℕ} (hj : j + 4 < 16) :
    sha256msg2 (addEpi32 (half w (j + 4)) (alignrEpi8 4 (quad w (j + 3)) (quad w (j + 2)))) (quad w (j + 3)) =
      quad w (j + 4) :=
  sha256msg2_eq (hw (4 * j) (by omega)) (hw (4 * j + 1) (by omega)) (hw (4 * j + 2) (by omega))
    (hw (4 * j + 3) (by omega))

end

/-! ## The loops -/

section

variable {w : ℕ → UInt32} {s : State} {r : ℕ} {v : NiRounds}

/-- The state after `r` rounds of four. The register of the next ones holds their words, the two behind it theirs or
what they are made from. -/
structure InRounds (w : ℕ → UInt32) (s : State) (r : ℕ) (v : NiRounds) : Prop where
  abef : v.abef = packA (rounds (fun t => K.getD t 0) w (4 * r) s)
  cdgh : v.cdgh = packC (rounds (fun t => K.getD t 0) w (4 * r) s)
  now : r < 16 → v.m (Fin.ofNat 4 r) = quad w r
  next : r + 1 < 16 → v.m (Fin.ofNat 4 (r + 1)) = if r + 1 < 4 then quad w (r + 1) else half w (r + 1)
  later : r + 2 < 16 → v.m (Fin.ofNat 4 (r + 2)) = if r + 2 < 4 then quad w (r + 2) else half w (r + 2)
  before : v.m (Fin.ofNat 4 (r + 3)) = if r = 0 then quad w 3 else quad w (r - 1)

theorem slot_ne {a b : ℕ} (h : a % 4 ≠ b % 4) : Fin.ofNat 4 a ≠ Fin.ofNat 4 b := fun he => h (congrArg Fin.val he)

theorem slot_add (a : ℕ) : Fin.ofNat 4 (a + 4) = Fin.ofNat 4 a := Fin.ext (Nat.add_mod_right a 4)

/-- A place that neither update of the words is for. -/
theorem niWords_of_ne (m : Fin 4 → M128i) {i : Fin 4} (h₁ : i ≠ Fin.ofNat 4 (r + 1)) (h₃ : i ≠ Fin.ofNat 4 (r + 3)) :
    niWords m r i = m i := by
  simp only [niWords]
  split_ifs <;> simp only [Function.update_of_ne h₁, Function.update_of_ne h₃]

theorem InRounds.words_next (hw : Recurs w) (h : InRounds w s r v) (hr : r + 1 < 16) :
    niWords v.m r (Fin.ofNat 4 (r + 1)) = quad w (r + 1) := by
  have hne : Fin.ofNat 4 (r + 1) ≠ Fin.ofNat 4 (r + 3) := slot_ne (by omega)
  have hm : niWords v.m r (Fin.ofNat 4 (r + 1)) = if 3 ≤ r ∧ r < 15 then
      sha256msg2 (addEpi32 (v.m (Fin.ofNat 4 (r + 1))) (alignrEpi8 4 (v.m (Fin.ofNat 4 r)) (v.m (Fin.ofNat 4 (r + 3)))))
        (v.m (Fin.ofNat 4 r)) else v.m (Fin.ofNat 4 (r + 1)) := by
    simp only [niWords]
    split_ifs <;> simp only [Function.update_of_ne hne, Function.update_self]
  by_cases hthree : 3 ≤ r
  · obtain ⟨j, rfl⟩ : ∃ j, r = j + 3 := ⟨r - 3, by omega⟩
    rw [hm, if_pos (by omega), h.next hr, if_neg (by omega), h.now (by omega), h.before, if_neg (by omega)]
    exact quad_step hw hr
  · rw [hm, if_neg (by omega), h.next hr, if_pos (by omega)]

theorem InRounds.words_later (h : InRounds w s r v) (hr : r + 3 < 16) :
    niWords v.m r (Fin.ofNat 4 (r + 3)) = if r + 3 < 4 then quad w (r + 3) else half w (r + 3) := by
  have hne : Fin.ofNat 4 (r + 3) ≠ Fin.ofNat 4 (r + 1) := slot_ne (by omega)
  have hne' : Fin.ofNat 4 r ≠ Fin.ofNat 4 (r + 1) := slot_ne (by omega)
  have hm : niWords v.m r (Fin.ofNat 4 (r + 3)) = if 1 ≤ r ∧ r < 13 then
      sha256msg1 (v.m (Fin.ofNat 4 (r + 3))) (v.m (Fin.ofNat 4 r)) else v.m (Fin.ofNat 4 (r + 3)) := by
    simp only [niWords]
    split_ifs <;> simp only [Function.update_of_ne hne, Function.update_of_ne hne', Function.update_self]
  rcases Nat.eq_zero_or_pos r with rfl | hpos
  · rw [hm, if_neg (by omega), h.before, if_pos rfl, if_pos (by omega)]
  · obtain ⟨j, rfl⟩ : ∃ j, r = j + 1 := ⟨r - 1, by omega⟩
    rw [hm, if_pos (by omega), h.before, if_neg (by omega), h.now (by omega), if_neg (by omega)]
    rfl

/-- The words of four rounds with their constants. -/
theorem addEpi32_loadK (w : ℕ → UInt32) (r : ℕ) : addEpi32 (quad w r) (loadK r) =
    ⟨w (4 * r) + K.getD (4 * r) 0, w (4 * r + 1) + K.getD (4 * r + 1) 0, w (4 * r + 2) + K.getD (4 * r + 2) 0,
      w (4 * r + 3) + K.getD (4 * r + 3) 0⟩ := rfl

/-- The body of the loop is four rounds and keeps the words in place. -/
theorem InRounds.niStep (hw : Recurs w) (hr : r < 16) (h : InRounds w s r v) : InRounds w s (r + 1) (niStep v r) := by
  have hrounds : rounds (fun t => K.getD t 0) w (4 * (r + 1)) s =
      round (K.getD (4 * r + 3) 0) (w (4 * r + 3)) (round (K.getD (4 * r + 2) 0) (w (4 * r + 2))
        (round (K.getD (4 * r + 1) 0) (w (4 * r + 1)) (round (K.getD (4 * r) 0) (w (4 * r))
          (rounds (fun t => K.getD t 0) w (4 * r) s)))) := rfl
  have hcdgh : (Sha256.niStep v r).cdgh = packA (round (K.getD (4 * r + 1) 0) (w (4 * r + 1))
      (round (K.getD (4 * r) 0) (w (4 * r)) (rounds (fun t => K.getD t 0) w (4 * r) s))) := by
    rw [Sha256.niStep, h.abef, h.cdgh, h.now hr, addEpi32_loadK, sha256rnds2_eq]
  refine ⟨?_, hcdgh.trans (by rw [hrounds]; rfl), fun hr' => h.words_next hw hr', ?_, fun hr' => h.words_later hr', ?_⟩
  · rw [Sha256.niStep, h.abef, h.cdgh, h.now hr, addEpi32_loadK, sha256rnds2_eq, sha256rnds2_high, hrounds]
  · exact fun hr' => (niWords_of_ne _ (slot_ne (by omega)) (slot_ne (by omega))).trans (h.later hr')
  · rw [if_neg (by omega), show r + 1 + 3 = r + 4 by omega, slot_add]
    exact (niWords_of_ne _ (slot_ne (by omega)) (slot_ne (by omega))).trans (h.now hr)

end

section

variable {block : List UInt8}

theorem getD_words (hb : block.length = 64) {t : ℕ} (ht : t < 16) :
    (words block).getD t 0 = ofBe ((block.drop (4 * t)).take 4) := by
  have hlen : t < (words block).length := by rwa [length_words hb]
  rw [List.getD_eq_getElem _ _ hlen]
  simp [words, chunks]

/-- A load with its bytes turned round holds four words of the block. -/
theorem load_quad (hb : block.length = 64) {i : ℕ} (hi : i < 4) :
    shuffleEpi8 (ofBytes (block.drop (16 * i))) swap = quad (word block) i := by
  have hword : ∀ j < 4, word block (4 * i + j) = ofBe ((block.drop (16 * i + 4 * j)).take 4) := by
    intro j hj
    rw [word_of_lt hb (by omega), getD_words hb (by omega), show 4 * (4 * i + j) = 16 * i + 4 * j by omega]
  have hfirst : word block (4 * i) = ofBe ((block.drop (16 * i)).take 4) := hword 0 (by decide)
  rw [shuffleEpi8_swap (by rw [List.length_drop]; omega), List.drop_drop, List.drop_drop, List.drop_drop, quad,
    ← hword 1 (by decide), ← hword 2 (by decide), ← hword 3 (by decide), hfirst]

theorem niBlock_eq (hb : block.length = 64) (s : State) :
    niBlock (packA s, packC s) block = (packA (compress s block), packC (compress s block)) := by
  have hw : Recurs (word block) := fun t ht => word_rec hb ht
  have hstart : InRounds (word block) s 0
      ⟨packA s, packC s, fun i => shuffleEpi8 (ofBytes (block.drop (16 * i.val))) swap⟩ :=
    ⟨rfl, rfl, fun _ => load_quad hb (i := 0) (by decide), fun _ => load_quad hb (i := 1) (by decide),
      fun _ => load_quad hb (i := 2) (by decide), load_quad hb (i := 3) (by decide)⟩
  have hend := foldl_range hstart fun r hr v hv => InRounds.niStep hw hr hv
  rw [niBlock, compress, ← K_eq]
  dsimp only
  rw [hend.abef, hend.cdgh]
  rfl

/-- The state goes into the registers and comes out again. -/
theorem compressNi_eq (state : State) (blocks : List UInt8) :
    compressNi state blocks = absorb state (blocks.take (blocks.length / 64 * 64)) := by
  have hloop : ∀ (cs : List (List UInt8)) (s : State), (∀ c ∈ cs, c.length = 64) →
      cs.foldl niBlock (packA s, packC s) = (packA (cs.foldl compress s), packC (cs.foldl compress s)) := by
    intro cs
    induction cs with
    | nil => exact fun _ _ => rfl
    | cons c cs ih =>
      intro s hcs
      rw [List.foldl_cons, niBlock_eq (hcs c List.mem_cons_self), ih _ fun c hc => hcs c (List.mem_cons_of_mem _ hc)]
      rfl
  have hin := hloop (chunksExact 64 blocks) state fun c hc => length_of_mem_chunksExact (by decide) hc
  have henter (s : State) : (alignrEpi8 8 (shuffleEpi32 0xb1 ⟨s.a, s.b, s.c, s.d⟩) (shuffleEpi32 0x1b ⟨s.e, s.f, s.g, s.h⟩),
      blendEpi16 0xf0 (shuffleEpi32 0x1b ⟨s.e, s.f, s.g, s.h⟩) (shuffleEpi32 0xb1 ⟨s.a, s.b, s.c, s.d⟩)) =
        (packA s, packC s) := by
    rw [alignrEpi8_eight, blendEpi16_high]
    rfl
  have hlow (s : State) : blendEpi16 0xf0 (shuffleEpi32 0x1b (packA s)) (shuffleEpi32 0xb1 (packC s)) =
      ⟨s.a, s.b, s.c, s.d⟩ := blendEpi16_high _ _
  have hhigh (s : State) : alignrEpi8 8 (shuffleEpi32 0xb1 (packC s)) (shuffleEpi32 0x1b (packA s)) =
      ⟨s.e, s.f, s.g, s.h⟩ := alignrEpi8_eight _ _
  rw [compressNi, henter, hin, hlow, hhigh]
  rfl

end

/-- The vector path and the scalar path leave the same state, that of the standard. -/
theorem compress_paths (state : State) (blocks : List UInt8) :
    compressNi state blocks = (chunksExact 64 blocks).foldl compressScalar state ∧
      compressNi state blocks = absorb state (blocks.take (blocks.length / 64 * 64)) :=
  ⟨(compressNi_eq state blocks).trans (scalar_absorb state blocks).symm, compressNi_eq state blocks⟩

end Chatlink.Net.Sha256
