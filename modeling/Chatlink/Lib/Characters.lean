import Mathlib
import Chatlink.Lib.Utf8

/-!
# UTF-8, character by character

What some bytes begin with: a character, bytes that are none, or too few to tell. Decoding byte by byte
replaces each byte at which no character is encoded; `Reads` says so with the encoding alone.
-/
namespace Utf8

/-- What some bytes begin with: a character and the bytes after it, some bytes that are none, or less than one. -/
inductive Head where
  | char (c : Char) (rest : List UInt8)
  | bad (n : ℕ)
  | cut

/-- A character that has begun with `n` bytes, and the bytes that follow. -/
@[grind =] def goOn (p : Begun) (n : ℕ) : List UInt8 → Head
  | [] => .cut
  | b :: bs =>
    if p.lo ≤ b.toNat ∧ b.toNat ≤ p.hi then
      if p.left = 1 then .char (Char.ofNat (64 * p.value + b.toNat % 64)) bs
      else goOn ⟨64 * p.value + b.toNat % 64, p.left - 1, 0x80, 0xBF⟩ (n + 1) bs
    else .bad n

@[grind =] def head : List UInt8 → Head
  | [] => .cut
  | b :: bs =>
    if b.toNat < 0x80 then .char (ascii b) bs
    else match (lead b).2 with
      | none => .bad 1
      | some p => goOn p 1 bs

/-- A byte that goes on with a character. -/
def Tail (b : UInt8) : Prop := 0x80 ≤ b.toNat ∧ b.toNat ≤ 0xBF

/-! ## How far a character goes -/

theorem goOn_char {p : Begun} {n : ℕ} {bs rest : List UInt8} {c : Char} (h : goOn p n bs = .char c rest) :
    rest.length < bs.length := by
  induction bs generalizing p n with
  | nil => cases h
  | cons b bs ih =>
    rw [goOn] at h
    split_ifs at h
    · cases h
      simp
    · have := ih h
      simp only [List.length_cons]
      omega

theorem head_char_length {bs rest : List UInt8} {c : Char} (h : head bs = .char c rest) : rest.length < bs.length := by
  cases bs with
  | nil => cases h
  | cons b bs =>
    rw [head] at h
    split_ifs at h
    · cases h
      simp
    · split at h
      · cases h
      · have := goOn_char h
        simp only [List.length_cons]
        omega

theorem goOn_bad {p : Begun} (hp : p.Wide) {n k : ℕ} {bs : List UInt8} (h : goOn p n bs = .bad k) :
    ∃ w rest, bs = w ++ rest ∧ k = n + w.length ∧ (∀ b ∈ w, Tail b) ∧ ∀ more, goOn p n (bs ++ more) = .bad k := by
  induction bs generalizing p n with
  | nil => cases h
  | cons b bs ih =>
    rw [goOn] at h
    obtain ⟨hlo, hhi, hleft, hvalue⟩ := hp
    split_ifs at h with hin hlast
    · obtain ⟨w, rest, hbs, hk, hw, hmore⟩ := ih ⟨le_rfl, le_rfl, by dsimp only; omega, by dsimp only; omega⟩ h
      refine ⟨b :: w, rest, by rw [hbs, List.cons_append], by rw [hk, List.length_cons]; omega, ?_, fun more => ?_⟩
      · intro x hx
        obtain rfl | hx := List.mem_cons.mp hx
        · exact ⟨by omega, by omega⟩
        · exact hw x hx
      · rw [List.cons_append, goOn, if_pos hin, if_neg hlast, hmore]
    · cases h
      refine ⟨[], b :: bs, rfl, rfl, nofun, fun more => ?_⟩
      rw [List.cons_append, goOn, if_neg hin]

theorem goOn_cut {p : Begun} (hp : p.Wide) {n : ℕ} {bs : List UInt8} (h : goOn p n bs = .cut) :
    bs.length < p.left ∧ ∀ b ∈ bs, Tail b := by
  induction bs generalizing p n with
  | nil => exact ⟨hp.left, nofun⟩
  | cons b bs ih =>
    rw [goOn] at h
    obtain ⟨hlo, hhi, hleft, hvalue⟩ := hp
    split_ifs at h with hin hlast
    obtain ⟨hlen, hbs⟩ := ih ⟨le_rfl, le_rfl, by dsimp only; omega, by dsimp only; omega⟩ h
    refine ⟨by rw [List.length_cons]; dsimp only at hlen; omega, fun x hx => ?_⟩
    obtain rfl | hx := List.mem_cons.mp hx
    · exact ⟨by omega, by omega⟩
    · exact hbs x hx

theorem lead_left {b : UInt8} {p : Begun} (h : (lead b).2 = some p) : p.left ≤ 3 := by
  unfold lead at h
  dsimp only at h
  split_ifs at h
  all_goals
    injection h with h
    subst h
    simp

/-- What is refused stays refused, whatever follows; but for its first byte it could only have gone on. -/
theorem head_bad {bs : List UInt8} {k : ℕ} (h : head bs = .bad k) :
    ∃ b w rest, bs = b :: (w ++ rest) ∧ k = w.length + 1 ∧ (∀ x ∈ w, Tail x) ∧ ∀ more, head (bs ++ more) = .bad k := by
  cases bs with
  | nil => cases h
  | cons b bs =>
    rw [head] at h
    split_ifs at h with hb
    split at h
    · next hl =>
      cases h
      refine ⟨b, [], bs, rfl, rfl, nofun, fun more => ?_⟩
      rw [List.cons_append, head, if_neg hb, hl]
    · next p hl =>
      obtain ⟨w, rest, hbs, hk, hw, hmore⟩ := goOn_bad (wide_lead b p hl) h
      refine ⟨b, w, rest, by rw [hbs], by omega, hw, fun more => ?_⟩
      rw [List.cons_append, head, if_neg hb, hl]
      exact hmore more

/-- What is too short for a character has at most three bytes. -/
theorem head_cut {bs : List UInt8} (h : head bs = .cut) :
    bs = [] ∨ ∃ b w, bs = b :: w ∧ w.length < 3 ∧ ∀ x ∈ w, Tail x := by
  cases bs with
  | nil => exact .inl rfl
  | cons b bs =>
    rw [head] at h
    split_ifs at h with hb
    split at h
    · cases h
    · next p hl =>
      obtain ⟨hlen, hbs⟩ := goOn_cut (wide_lead b p hl) h
      have := lead_left hl
      exact .inr ⟨b, bs, rfl, by omega, hbs⟩

theorem head_tail {b : UInt8} (hb : Tail b) (bs : List UInt8) : head (b :: bs) = .bad 1 := by
  obtain ⟨hlo, hhi⟩ := hb
  rw [head, if_neg (by omega)]
  have hl : (lead b).2 = none := by
    unfold lead
    dsimp only
    split_ifs
    all_goals first | rfl | omega
  rw [hl]

/-! ## A character's own bytes -/

theorem toNat_lt (c : Char) : c.toNat < 0xD800 ∨ 0xDFFF < c.toNat ∧ c.toNat < 0x110000 := c.valid

theorem utf8_one {c : Char} (h : c.toNat ≤ 0x7F) : String.utf8EncodeChar c = [UInt8.ofNat c.toNat] := by
  change c.val.toNat ≤ 0x7F at h
  simp only [String.utf8EncodeChar, if_pos h]
  rfl

theorem utf8_two {c : Char} (h1 : 0x7F < c.toNat) (h : c.toNat ≤ 0x7FF) :
    String.utf8EncodeChar c = [UInt8.ofNat (c.toNat / 64 + 0xC0), UInt8.ofNat (c.toNat % 64 + 0x80)] := by
  change 0x7F < c.val.toNat at h1
  change c.val.toNat ≤ 0x7FF at h
  simp only [String.utf8EncodeChar, if_neg h1.not_ge, if_pos h]
  rw [Nat.mod_eq_of_lt (show c.val.toNat / 64 < 32 by omega)]
  rfl

theorem utf8_three {c : Char} (h1 : 0x7FF < c.toNat) (h : c.toNat ≤ 0xFFFF) :
    String.utf8EncodeChar c = [UInt8.ofNat (c.toNat / 4096 + 0xE0), UInt8.ofNat (c.toNat / 64 % 64 + 0x80),
      UInt8.ofNat (c.toNat % 64 + 0x80)] := by
  change 0x7FF < c.val.toNat at h1
  change c.val.toNat ≤ 0xFFFF at h
  simp only [String.utf8EncodeChar, if_neg h1.not_ge, if_neg (show ¬c.val.toNat ≤ 0x7F by omega), if_pos h]
  rw [Nat.mod_eq_of_lt (show c.val.toNat / 4096 < 16 by omega)]
  rfl

theorem utf8_four {c : Char} (h : 0xFFFF < c.toNat) :
    String.utf8EncodeChar c = [UInt8.ofNat (c.toNat / 262144 + 0xF0), UInt8.ofNat (c.toNat / 4096 % 64 + 0x80),
      UInt8.ofNat (c.toNat / 64 % 64 + 0x80), UInt8.ofNat (c.toNat % 64 + 0x80)] := by
  have hmax := toNat_lt c
  change c.val.toNat < _ ∨ _ ∧ c.val.toNat < _ at hmax
  change 0xFFFF < c.val.toNat at h
  simp only [String.utf8EncodeChar, if_neg h.not_ge, if_neg (show ¬c.val.toNat ≤ 0x7F by omega),
    if_neg (show ¬c.val.toNat ≤ 0x7FF by omega)]
  rw [Nat.mod_eq_of_lt (show c.val.toNat / 262144 < 8 by omega)]
  rfl

/-- A byte, given as a number. -/
theorem toNat_byte {n : ℕ} (h : n < 256) : (UInt8.ofNat n).toNat = n := by
  rw [UInt8.toNat_ofNat']
  omega

theorem eq_byte {b : UInt8} {n : ℕ} (h : b.toNat = n) : b = UInt8.ofNat n := by
  rw [← h, UInt8.ofNat_toNat]

theorem goOn_last {v lo hi n m : ℕ} {bs : List UInt8} (hm : m < 256) (hlo : lo ≤ m) (hhi : m ≤ hi) :
    goOn ⟨v, 1, lo, hi⟩ n (UInt8.ofNat m :: bs) = .char (Char.ofNat (64 * v + m % 64)) bs := by
  rw [goOn, toNat_byte hm, if_pos ⟨hlo, hhi⟩, if_pos rfl]

theorem goOn_more {v l lo hi n m : ℕ} {bs : List UInt8} (hl : 0 < l) (hm : m < 256) (hlo : lo ≤ m) (hhi : m ≤ hi) :
    goOn ⟨v, l + 1, lo, hi⟩ n (UInt8.ofNat m :: bs) = goOn ⟨64 * v + m % 64, l, 0x80, 0xBF⟩ (n + 1) bs := by
  rw [goOn, toNat_byte hm, if_pos ⟨hlo, hhi⟩, if_neg (by dsimp only; omega)]
  rfl

theorem head_of_lead {n : ℕ} {p : Begun} {bs : List UInt8} (h : (lead (UInt8.ofNat n)).2 = some p) (hlo : 0x80 ≤ n)
    (hn : n < 256) : head (UInt8.ofNat n :: bs) = goOn p 1 bs := by
  rw [head, toNat_byte hn, if_neg (by omega), h]

theorem lead_of_two {v : ℕ} (hlo : 2 ≤ v) (hhi : v < 32) : (lead (UInt8.ofNat (v + 0xC0))).2 = some ⟨v, 1, 0x80, 0xBF⟩ := by
  rw [lead, toNat_byte (by omega)]
  rw [if_neg (by omega), if_pos (by omega), Nat.add_sub_cancel]

/-- The second byte of three may lie where no shorter form and no surrogate begins. -/
theorem lead_of_three {v m : ℕ} (hv : v < 16) (hlo : 0x80 ≤ m) (hhi : m < 0xC0) (hshort : v = 0 → 0xA0 ≤ m)
    (hsurrogate : v = 13 → m < 0xA0) :
    ∃ lo hi, (lead (UInt8.ofNat (v + 0xE0))).2 = some ⟨v, 2, lo, hi⟩ ∧ lo ≤ m ∧ m ≤ hi := by
  rw [lead, toNat_byte (by omega), Nat.add_sub_cancel]
  split_ifs
  all_goals first
    | omega
    | exact ⟨_, _, rfl, by omega, by omega⟩
    | obtain rfl : v = 0 := by omega
      exact ⟨_, _, rfl, by omega, by omega⟩
    | obtain rfl : v = 13 := by omega
      exact ⟨_, _, rfl, by omega, by omega⟩

theorem lead_of_four {v m : ℕ} (hv : v < 5) (hlo : 0x80 ≤ m) (hhi : m < 0xC0) (hshort : v = 0 → 0x90 ≤ m)
    (hlast : v = 4 → m < 0x90) :
    ∃ lo hi, (lead (UInt8.ofNat (v + 0xF0))).2 = some ⟨v, 3, lo, hi⟩ ∧ lo ≤ m ∧ m ≤ hi := by
  rw [lead, toNat_byte (by omega), Nat.add_sub_cancel]
  split_ifs
  all_goals first
    | omega
    | exact ⟨_, _, rfl, by omega, by omega⟩
    | obtain rfl : v = 0 := by omega
      exact ⟨_, _, rfl, by omega, by omega⟩
    | obtain rfl : v = 4 := by omega
      exact ⟨_, _, rfl, by omega, by omega⟩

theorem ofNat_eq {c : Char} {n : ℕ} (h : n = c.toNat) : Char.ofNat n = c := by rw [h, Char.ofNat_toNat]

/-- The bytes of a character are read as that character. -/
theorem head_encode (c : Char) (bs : List UInt8) : head (String.utf8EncodeChar c ++ bs) = .char c bs := by
  have hc := toNat_lt c
  by_cases h1 : c.toNat ≤ 0x7F
  · rw [utf8_one h1, List.singleton_append, head, toNat_byte (by omega), if_pos (by omega), ascii,
      toNat_byte (by omega), Char.ofNat_toNat]
  by_cases h2 : c.toNat ≤ 0x7FF
  · rw [utf8_two (by omega) h2]
    simp only [List.cons_append, List.nil_append]
    rw [head_of_lead (lead_of_two (by omega) (by omega)) (by omega) (by omega),
      goOn_last (by omega) (by omega) (by omega)]
    exact congrArg (Head.char · bs) (ofNat_eq (by omega))
  by_cases h3 : c.toNat ≤ 0xFFFF
  · rw [utf8_three (by omega) h3]
    simp only [List.cons_append, List.nil_append]
    obtain ⟨lo, hi, hl, hlo, hhi⟩ := @lead_of_three (c.toNat / 4096) (c.toNat / 64 % 64 + 0x80)
      (by omega) (by omega) (by omega) (by omega) (by omega)
    rw [head_of_lead hl (by omega) (by omega), goOn_more (by omega) (by omega) hlo hhi,
      goOn_last (by omega) (by omega) (by omega)]
    exact congrArg (Head.char · bs) (ofNat_eq (by omega))
  · rw [utf8_four (by omega)]
    simp only [List.cons_append, List.nil_append]
    obtain ⟨lo, hi, hl, hlo, hhi⟩ := @lead_of_four (c.toNat / 262144) (c.toNat / 4096 % 64 + 0x80)
      (by omega) (by omega) (by omega) (by omega) (by omega)
    rw [head_of_lead hl (by omega) (by omega), goOn_more (by omega) (by omega) hlo hhi,
      goOn_more (by omega) (by omega) (by omega) (by omega), goOn_last (by omega) (by omega) (by omega)]
    exact congrArg (Head.char · bs) (ofNat_eq (by omega))

theorem goOn_last_inv {v lo hi n : ℕ} {bs rest : List UInt8} {c : Char} (h : goOn ⟨v, 1, lo, hi⟩ n bs = .char c rest) :
    ∃ b, bs = b :: rest ∧ lo ≤ b.toNat ∧ b.toNat ≤ hi ∧ c = Char.ofNat (64 * v + b.toNat % 64) := by
  cases bs with
  | nil => cases h
  | cons b bs =>
    rw [goOn, if_pos rfl] at h
    split_ifs at h with hin
    cases h
    exact ⟨b, rfl, hin.1, hin.2, rfl⟩

theorem goOn_more_inv {v l lo hi n : ℕ} (hl : 0 < l) {bs rest : List UInt8} {c : Char}
    (h : goOn ⟨v, l + 1, lo, hi⟩ n bs = .char c rest) :
    ∃ b bs', bs = b :: bs' ∧ lo ≤ b.toNat ∧ b.toNat ≤ hi ∧
      goOn ⟨64 * v + b.toNat % 64, l, 0x80, 0xBF⟩ (n + 1) bs' = .char c rest := by
  cases bs with
  | nil => cases h
  | cons b bs =>
    rw [goOn, if_neg (show ¬l + 1 = 1 by omega)] at h
    split_ifs at h with hin
    exact ⟨b, bs, rfl, hin.1, hin.2, h⟩

/-- The bytes a character may begin with. -/
theorem lead_inv {b : UInt8} {p : Begun} (h : (lead b).2 = some p) :
    (∃ v, 2 ≤ v ∧ v < 32 ∧ b.toNat = v + 0xC0 ∧ p = ⟨v, 1, 0x80, 0xBF⟩) ∨
    (∃ v lo hi, v < 16 ∧ b.toNat = v + 0xE0 ∧ p = ⟨v, 2, lo, hi⟩ ∧ 0x80 ≤ lo ∧ hi ≤ 0xBF ∧ (v = 0 → 0xA0 ≤ lo) ∧
      (v = 13 → hi ≤ 0x9F)) ∨
    ∃ v lo hi, v < 5 ∧ b.toNat = v + 0xF0 ∧ p = ⟨v, 3, lo, hi⟩ ∧ 0x80 ≤ lo ∧ hi ≤ 0xBF ∧ (v = 0 → 0x90 ≤ lo) ∧
      (v = 4 → hi ≤ 0x8F) := by
  unfold lead at h
  dsimp only at h
  split_ifs at h
  all_goals
    injection h with h
    subst h
  · exact .inl ⟨_, by omega, by omega, by omega, rfl⟩
  · exact .inr (.inl ⟨_, _, _, by omega, by omega, rfl, by omega, by omega, by omega, by omega⟩)
  · exact .inr (.inl ⟨_, _, _, by omega, by omega, rfl, by omega, by omega, by omega, by omega⟩)
  · exact .inr (.inl ⟨_, _, _, by omega, by omega, rfl, by omega, by omega, by omega, by omega⟩)
  · exact .inr (.inr ⟨_, _, _, by omega, by omega, rfl, by omega, by omega, by omega, by omega⟩)
  · exact .inr (.inr ⟨_, _, _, by omega, by omega, rfl, by omega, by omega, by omega, by omega⟩)
  · exact .inr (.inr ⟨_, _, _, by omega, by omega, rfl, by omega, by omega, by omega, by omega⟩)

theorem toNat_char {n : ℕ} (h : n < 0xD800 ∨ 0xDFFF < n ∧ n < 0x110000) : (Char.ofNat n).toNat = n := by
  rw [Char.toNat_ofNat, if_pos h]

/-- What is read as a character is the bytes of that character. -/
theorem eq_encode {bs rest : List UInt8} {c : Char} (h : head bs = .char c rest) : bs = String.utf8EncodeChar c ++ rest := by
  cases bs with
  | nil => cases h
  | cons b bs =>
    rw [head] at h
    split_ifs at h with hb
    · cases h
      rw [utf8_one (by rw [toNat_ascii]; omega), toNat_ascii, UInt8.ofNat_toNat, List.singleton_append]
    · split at h
      · cases h
      next p hl =>
      obtain ⟨v, hlo, hhi, hbv, rfl⟩ | ⟨v, lo, hi, hv, hbv, rfl, hlo, hhi, hshort, hsurrogate⟩ |
        ⟨v, lo, hi, hv, hbv, rfl, hlo, hhi, hshort, hlast⟩ := lead_inv hl
      · obtain ⟨x, rfl, hx, hx', rfl⟩ := goOn_last_inv h
        have hn := @toNat_char (64 * v + x.toNat % 64) (by omega)
        rw [utf8_two (by omega) (by omega), hn]
        exact congrArg₂ List.cons (eq_byte (by omega)) (congrArg₂ List.cons (eq_byte (by omega)) rfl)
      · obtain ⟨x, bs, rfl, hx, hx', h⟩ := goOn_more_inv (by omega) h
        obtain ⟨y, rfl, hy, hy', rfl⟩ := goOn_last_inv h
        have hn := @toNat_char (64 * (64 * v + x.toNat % 64) + y.toNat % 64) (by omega)
        rw [utf8_three (by omega) (by omega), hn]
        exact congrArg₂ List.cons (eq_byte (by omega)) (congrArg₂ List.cons (eq_byte (by omega))
          (congrArg₂ List.cons (eq_byte (by omega)) rfl))
      · obtain ⟨x, bs, rfl, hx, hx', h⟩ := goOn_more_inv (by omega) h
        obtain ⟨y, bs, rfl, hy, hy', h⟩ := goOn_more_inv (by omega) h
        obtain ⟨z, rfl, hz, hz', rfl⟩ := goOn_last_inv h
        have hn := @toNat_char (64 * (64 * (64 * v + x.toNat % 64) + y.toNat % 64) + z.toNat % 64) (by omega)
        rw [utf8_four (by omega), hn]
        exact congrArg₂ List.cons (eq_byte (by omega)) (congrArg₂ List.cons (eq_byte (by omega))
          (congrArg₂ List.cons (eq_byte (by omega)) (congrArg₂ List.cons (eq_byte (by omega)) rfl)))

/-! ## Text, checked -/

/-- Where bytes stop being UTF-8, and how many bytes after it are none; `none` when they only stop too soon. -/
structure Utf8Error where
  validUpTo : ℕ
  errorLen : Option ℕ
  deriving DecidableEq, Repr

/-- The characters from byte `i` on. -/
def validate (i : ℕ) (bs : List UInt8) : Except Utf8Error (List Char) :=
  if bs = [] then .ok []
  else match _h : head bs with
    | .char c rest => (validate (i + (bs.length - rest.length)) rest).map (c :: ·)
    | .bad n => .error ⟨i, some n⟩
    | .cut => .error ⟨i, none⟩
termination_by bs.length
decreasing_by exact head_char_length ‹_›

def fromUtf8 (bs : List UInt8) : Except Utf8Error (List Char) := validate 0 bs

/-- The bytes of a text. -/
def bytes (t : List Char) : List UInt8 := t.flatMap String.utf8EncodeChar

@[simp] theorem bytes_nil : bytes [] = [] := rfl

@[simp] theorem bytes_cons (c : Char) (t : List Char) : bytes (c :: t) = String.utf8EncodeChar c ++ bytes t := rfl

theorem encode_ne_nil (c : Char) : String.utf8EncodeChar c ≠ [] := by
  intro hnil
  have h := String.length_utf8EncodeChar c
  rw [hnil] at h
  have := c.utf8Size_pos
  simp at h
  omega

theorem validate_nil (i : ℕ) : validate i [] = .ok [] := by rw [validate, if_pos rfl]

theorem validate_char (i : ℕ) (c : Char) (bs : List UInt8) :
    validate i (String.utf8EncodeChar c ++ bs) = (validate (i + (String.utf8EncodeChar c).length) bs).map (c :: ·) := by
  rw [validate, if_neg (by simp)]
  split
  · next d rest hd =>
    rw [head_encode] at hd
    cases hd
    rw [List.length_append, Nat.add_sub_cancel]
  · next n hd => rw [head_encode] at hd; cases hd
  · next hd => rw [head_encode] at hd; cases hd

theorem validate_bytes (i : ℕ) (t : List Char) : validate i (bytes t) = .ok t := by
  induction t generalizing i with
  | nil => exact validate_nil i
  | cons c t ih => rw [bytes_cons, validate_char, ih]; rfl

theorem fromUtf8_bytes (t : List Char) : fromUtf8 (bytes t) = .ok t := validate_bytes 0 t

theorem validate_ok {i : ℕ} {bs : List UInt8} {t : List Char} (h : validate i bs = .ok t) : bs = bytes t := by
  induction t generalizing i bs with
  | nil =>
    rw [validate] at h
    split_ifs at h with hnil
    · exact hnil
    · split at h
      · next c rest hd => cases hv : validate (i + (bs.length - rest.length)) rest <;> simp [hv, Except.map] at h
      · cases h
      · cases h
  | cons c t ih =>
    rw [validate] at h
    split_ifs at h with hnil
    · cases h
    split at h
    · next d rest hd =>
      cases hv : validate (i + (bs.length - rest.length)) rest with
      | error e => simp [hv, Except.map] at h
      | ok t' =>
        simp only [hv, Except.map, Except.ok.injEq, List.cons.injEq] at h
        obtain ⟨rfl, rfl⟩ := h
        rw [bytes_cons, ← ih hv]
        exact eq_encode hd
    · cases h
    · cases h

theorem fromUtf8_ok {bs : List UInt8} {t : List Char} (h : fromUtf8 bs = .ok t) : bs = bytes t := validate_ok h

/-- What an error says of the bytes: a text, and where it ends, something else. -/
theorem validate_error {i : ℕ} {bs : List UInt8} {e : Utf8Error} (h : validate i bs = .error e) :
    ∃ t rest, bs = bytes t ++ rest ∧ e.validUpTo = i + (bytes t).length ∧ rest ≠ [] ∧
      (e.errorLen = none ∧ head rest = .cut ∨ ∃ n, e.errorLen = some n ∧ head rest = .bad n) := by
  rw [validate] at h
  split_ifs at h with hnil
  split at h
  · next c rest hd =>
    have := head_char_length hd
    cases hv : validate (i + (bs.length - rest.length)) rest with
    | ok t' => simp [hv, Except.map] at h
    | error e' =>
      simp only [hv, Except.map, Except.error.injEq] at h
      subst h
      obtain ⟨t, rest', hrest, hup, hne, hlen⟩ := validate_error hv
      have hbs := eq_encode hd
      refine ⟨c :: t, rest', by rw [hbs, hrest, bytes_cons, List.append_assoc], ?_, hne, hlen⟩
      rw [hup, hbs, List.length_append, Nat.add_sub_cancel, bytes_cons, List.length_append, Nat.add_assoc]
  · next n hd =>
    cases h
    exact ⟨[], bs, rfl, rfl, hnil, .inr ⟨n, rfl, hd⟩⟩
  · next hd =>
    cases h
    exact ⟨[], bs, rfl, rfl, hnil, .inl ⟨rfl, hd⟩⟩
termination_by bs.length

theorem fromUtf8_error {bs : List UInt8} {e : Utf8Error} (h : fromUtf8 bs = .error e) :
    ∃ t rest, bs = bytes t ++ rest ∧ e.validUpTo = (bytes t).length ∧ rest ≠ [] ∧
      (e.errorLen = none ∧ head rest = .cut ∨ ∃ n, e.errorLen = some n ∧ head rest = .bad n) := by
  obtain ⟨t, rest, hbs, hup, hrest⟩ := validate_error h
  exact ⟨t, rest, hbs, by rw [hup, Nat.zero_add], hrest⟩

/-! ## Text, with each wrong byte replaced -/

/-- The text of some bytes: a character where its bytes stand, and U+FFFD for a byte where no character's do. -/
inductive Reads : List UInt8 → List Char → Prop where
  | nil : Reads [] []
  | char (c : Char) {bs : List UInt8} {t : List Char} (h : Reads bs t) : Reads (String.utf8EncodeChar c ++ bs) (c :: t)
  | other {b : UInt8} {bs : List UInt8} {t : List Char} (hb : ∀ c, ¬String.utf8EncodeChar c <+: b :: bs)
    (h : Reads bs t) : Reads (b :: bs) (REPLACEMENT :: t)

theorem head_of_encode {c : Char} {bs : List UInt8} (h : String.utf8EncodeChar c <+: bs) :
    ∃ rest, head bs = .char c rest := by
  obtain ⟨rest, rfl⟩ := h
  exact ⟨rest, head_encode c rest⟩

/-- Bytes have one text. -/
theorem Reads.unique {bs : List UInt8} {t t' : List Char} (h : Reads bs t) (h' : Reads bs t') : t = t' := by
  induction h generalizing t' with
  | nil =>
    generalize hbs : ([] : List UInt8) = bs at h'
    cases h' with
    | nil => rfl
    | char c h' => exact absurd (List.append_eq_nil_iff.mp hbs.symm).1 (encode_ne_nil c)
    | other hb h' => cases hbs
  | @char c bs t h ih =>
    generalize hbs : String.utf8EncodeChar c ++ bs = bs' at h'
    cases h' with
    | nil => exact absurd (List.append_eq_nil_iff.mp hbs).1 (encode_ne_nil c)
    | @char c' bs' t' h' =>
      have hhead := head_encode c bs
      rw [hbs, head_encode] at hhead
      cases hhead
      rw [ih h']
    | other hb h' => exact absurd ⟨bs, hbs⟩ (hb c)
  | @other b bs t hb h ih =>
    generalize hbs : b :: bs = bs' at h'
    cases h' with
    | nil => cases hbs
    | char c h' => exact absurd ⟨_, hbs.symm⟩ (hb c)
    | other hb' h' =>
      cases hbs
      rw [ih h']

/-- A text read before what follows. -/
theorem Reads.append {bs : List UInt8} {u : List Char} (t : List Char) (h : Reads bs u) : Reads (bytes t ++ bs) (t ++ u) := by
  induction t with
  | nil => exact h
  | cons c t ih =>
    rw [bytes_cons, List.append_assoc]
    exact .char c ih

/-- Bytes that only go on with a character, replaced. -/
theorem Reads.tails {w bs : List UInt8} {u : List Char} (hw : ∀ b ∈ w, Tail b) (h : Reads bs u) :
    Reads (w ++ bs) (List.replicate w.length REPLACEMENT ++ u) := by
  induction w with
  | nil => exact h
  | cons b w ih =>
    refine .other (fun c hc => ?_) (ih fun x hx => hw x (List.mem_cons_of_mem b hx))
    obtain ⟨rest, hrest⟩ := head_of_encode hc
    have hbad := head_tail (hw b List.mem_cons_self) (w ++ bs)
    exact Head.noConfusion (hbad.symm.trans hrest)

/-- What begins no character, and what goes on with it, replaced. -/
theorem Reads.broken {b : UInt8} {w bs : List UInt8} {u : List Char} (hhead : ∀ c rest, head (b :: (w ++ bs)) ≠ .char c rest)
    (hw : ∀ x ∈ w, Tail x) (h : Reads bs u) :
    Reads (b :: (w ++ bs)) (List.replicate (w.length + 1) REPLACEMENT ++ u) := by
  refine .other (fun c hc => ?_) (h.tails hw)
  obtain ⟨rest, hrest⟩ := head_of_encode hc
  exact hhead c rest hrest

end Utf8
