import Mathlib

/-!
# ASCII

Literals, white space, numbers in base sixteen as bytes, and unsigned numbers of some bits in digits of a
radix up to 36 as characters.
-/
namespace Ascii

/-- A literal of ASCII characters. -/
def byteString (s : String) : List UInt8 := s.toList.map fun c => UInt8.ofNat c.toNat

def isWhitespace (c : UInt8) : Bool := c = 0x20 || c = 0x09 || c = 0x0a || c = 0x0c || c = 0x0d

/-- The value of a digit in base sixteen. -/
def hexValue (c : UInt8) : Option ℕ :=
  if 0x30 ≤ c ∧ c ≤ 0x39 then some (c.toNat - 0x30)
  else if 0x61 ≤ c ∧ c ≤ 0x66 then some (c.toNat - 0x57)
  else if 0x41 ≤ c ∧ c ≤ 0x46 then some (c.toNat - 0x37)
  else none

/-- The number that digits spell, behind those of `n`. -/
def hexNumber (n : ℕ) : List UInt8 → Option ℕ
  | [] => some n
  | c :: cs => do
    let d ← hexValue c
    hexNumber (16 * n + d) cs

/-- A digit, with small letters. -/
def hexDigit (d : ℕ) : UInt8 := if d < 10 then UInt8.ofNat (0x30 + d) else UInt8.ofNat (0x57 + d)

/-- The last `w` digits of a number. -/
def hexDigits : ℕ → ℕ → List UInt8
  | 0, _ => []
  | w + 1, n => hexDigits w (n / 16) ++ [hexDigit (n % 16)]

theorem hexValue_hexDigit {d : ℕ} (hd : d < 16) : hexValue (hexDigit d) = some d := by
  have h : ∀ d < 16, hexValue (hexDigit d) = some d := by decide
  exact h d hd

theorem hexNumber_append (n : ℕ) (cs ds : List UInt8) :
    hexNumber n (cs ++ ds) = (hexNumber n cs).bind fun m => hexNumber m ds := by
  induction cs generalizing n with
  | nil => rfl
  | cons c cs ih =>
    rw [List.cons_append, hexNumber, hexNumber]
    cases hexValue c with
    | none => rfl
    | some d => exact ih (16 * n + d)

@[simp] theorem length_hexDigits (w n : ℕ) : (hexDigits w n).length = w := by
  induction w generalizing n with
  | zero => rfl
  | succ w ih => rw [hexDigits, List.length_append, ih, List.length_singleton]

/-- The digits of a number spell it. -/
theorem hexNumber_hexDigits {w n : ℕ} (hn : n < 16 ^ w) : hexNumber 0 (hexDigits w n) = some n := by
  induction w generalizing n with
  | zero =>
    obtain rfl : n = 0 := by simpa using hn
    rfl
  | succ w ih =>
    have hdiv : n / 16 < 16 ^ w := Nat.div_lt_of_lt_mul (by rwa [pow_succ'] at hn)
    have hlast : hexNumber (n / 16) [hexDigit (n % 16)] = some (16 * (n / 16) + n % 16) := by
      rw [hexNumber, hexValue_hexDigit (Nat.mod_lt n (by decide))]
      rfl
    rw [hexDigits, hexNumber_append, ih hdiv, Option.bind_some, hlast, Nat.div_add_mod]

/-- A number of `w` digits. -/
theorem hexNumber_lt {cs : List UInt8} {n m : ℕ} (h : hexNumber n cs = some m) : m < (n + 1) * 16 ^ cs.length := by
  induction cs generalizing n with
  | nil =>
    obtain rfl := Option.some.inj h
    simp
  | cons c cs ih =>
    rw [hexNumber] at h
    cases hc : hexValue c with
    | none =>
      rw [hc] at h
      exact absurd h.symm (Option.some_ne_none m)
    | some d =>
      rw [hc] at h
      have hd : d < 16 := by
        have hc' := c.toNat_lt
        simp only [hexValue, UInt8.le_iff_toNat_le] at hc
        split_ifs at hc with h₁ h₂ h₃
        · obtain rfl := Option.some.inj hc
          simp at h₁
          omega
        · obtain rfl := Option.some.inj hc
          simp at h₂
          omega
        · obtain rfl := Option.some.inj hc
          simp at h₃
          omega
      have hlt := ih h
      rw [List.length_cons, pow_succ']
      calc
        m < (16 * n + d + 1) * 16 ^ cs.length := hlt
        _ ≤ 16 * (n + 1) * 16 ^ cs.length := Nat.mul_le_mul_right _ (by omega)
        _ = (n + 1) * (16 * 16 ^ cs.length) := by ring

end Ascii

namespace Digits

/-- The value of a digit. -/
def digit (radix : ℕ) (c : Char) : Option ℕ :=
  let v := if '0' ≤ c ∧ c ≤ '9' then some (c.toNat - 48)
    else if 'a' ≤ c ∧ c ≤ 'z' then some (c.toNat - 87)
    else if 'A' ≤ c ∧ c ≤ 'Z' then some (c.toNat - 55) else none
  v.filter fun v => decide (v < radix)

/-- The value of digits, or `none` where one is none. -/
def value (radix : ℕ) (cs : List Char) : Option ℕ :=
  cs.foldlM (fun n c => (digit radix c).map fun v => radix * n + v) 0

/-- An unsigned number of some bits, perhaps with a plus sign. -/
def parse (radix bits : ℕ) (cs : List Char) : Option ℕ :=
  let digits := if cs.head? = some '+' then cs.drop 1 else cs
  if digits.isEmpty then none else (value radix digits).filter fun n => decide (n < 2 ^ bits)

/-- A text that spells a number. -/
def Numeral (radix : ℕ) (text : List Char) (n : ℕ) : Prop := text ≠ [] ∧ value radix text = some n

theorem digit_plus (radix : ℕ) : digit radix '+' = none := by
  rw [digit]
  rfl

/-- A numeral of some number is read as that number. -/
theorem parse_numeral {radix bits n : ℕ} {cs : List Char} (h : Numeral radix cs n) (hn : n < 2 ^ bits) :
    parse radix bits cs = some n := by
  obtain ⟨hne, hvalue⟩ := h
  have hplus : cs.head? ≠ some '+' := by
    cases cs with
    | nil => exact absurd rfl hne
    | cons c cs =>
      intro hc
      obtain rfl := Option.some.inj hc
      rw [value, List.foldlM_cons, digit_plus] at hvalue
      cases hvalue
  have hsome : cs.isEmpty = false := List.isEmpty_eq_false_iff.mpr hne
  rw [parse, if_neg hplus]
  simp only [hsome, hvalue, Bool.false_eq_true, if_false, Option.filter, decide_eq_true hn, if_true]

theorem digit_of_value {radix n m : ℕ} {cs : List Char}
    (h : cs.foldlM (fun n c => (digit radix c).map fun v => radix * n + v) n = some m) : ∀ c ∈ cs, ∃ v, digit radix c = some v := by
  induction cs generalizing n with
  | nil => exact fun c hc => absurd hc List.not_mem_nil
  | cons c cs ih =>
    rw [List.foldlM_cons] at h
    obtain ⟨n', hn', hrest⟩ := Option.bind_eq_some_iff.mp h
    obtain ⟨v, hv, -⟩ := Option.map_eq_some_iff.mp hn'
    intro c' hc'
    obtain rfl | hmem := List.mem_cons.mp hc'
    · exact ⟨v, hv⟩
    · exact ih hrest c' hmem

end Digits
