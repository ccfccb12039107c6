import Mathlib

/-!
# UTF-8, decoded with losses

Bytes are decoded one after the other. Where they are no UTF-8, the longest part that could have begun
a character is replaced. An ASCII byte always stands for itself, whatever is around it.
-/
namespace Utf8

/-- The replacement character. -/
def REPLACEMENT : Char := Char.ofNat 0xFFFD

/-- A character that has begun: its bits so far, how many bytes are left, and where the next one may lie. -/
structure Begun where
  value : ℕ
  left : ℕ
  lo : ℕ
  hi : ℕ

/-- A byte where a character begins. -/
def lead (b : UInt8) : List Char × Option Begun :=
  let n := b.toNat
  if n < 0x80 then ([Char.ofNat n], none)
  else if 0xC2 ≤ n ∧ n ≤ 0xDF then ([], some ⟨n - 0xC0, 1, 0x80, 0xBF⟩)
  else if n = 0xE0 then ([], some ⟨0, 2, 0xA0, 0xBF⟩)
  else if n = 0xED then ([], some ⟨0xD, 2, 0x80, 0x9F⟩)
  else if 0xE1 ≤ n ∧ n ≤ 0xEF then ([], some ⟨n - 0xE0, 2, 0x80, 0xBF⟩)
  else if n = 0xF0 then ([], some ⟨0, 3, 0x90, 0xBF⟩)
  else if 0xF1 ≤ n ∧ n ≤ 0xF3 then ([], some ⟨n - 0xF0, 3, 0x80, 0xBF⟩)
  else if n = 0xF4 then ([], some ⟨4, 3, 0x80, 0x8F⟩)
  else ([REPLACEMENT], none)

/-- What has begun and does not go on. -/
def broken : Option Begun → List Char
  | none => []
  | some _ => [REPLACEMENT]

/-- One more byte. -/
def next (p : Option Begun) (b : UInt8) : List Char × Option Begun :=
  match p with
  | none => lead b
  | some p =>
    let n := b.toNat
    if p.lo ≤ n ∧ n ≤ p.hi then
      if p.left = 1 then ([Char.ofNat (64 * p.value + n % 64)], none)
      else ([], some ⟨64 * p.value + n % 64, p.left - 1, 0x80, 0xBF⟩)
    else (broken (some p) ++ (lead b).1, (lead b).2)

def decode : Option Begun → List UInt8 → List Char
  | p, [] => broken p
  | p, b :: bs => (next p b).1 ++ decode (next p b).2 bs

theorem decode_nil (p : Option Begun) : decode p [] = broken p := rfl

theorem decode_cons (p : Option Begun) (b : UInt8) (bs : List UInt8) :
    decode p (b :: bs) = (next p b).1 ++ decode (next p b).2 bs := rfl

/-- The text of some bytes. -/
def lossy (bs : List UInt8) : List Char := decode none bs

/-- An ASCII byte as a character. -/
def ascii (b : UInt8) : Char := Char.ofNat b.toNat

/-! ## What may have begun -/

/-- What has begun never ends as an ASCII character. -/
structure Begun.Wide (p : Begun) : Prop where
  lo : 0x80 ≤ p.lo
  hi : p.hi ≤ 0xBF
  left : 0 < p.left
  value : 2 ≤ p.value ∨ 1 < p.left ∧ (1 ≤ p.value ∨ 0x90 ≤ p.lo)

def Wide (p : Option Begun) : Prop := ∀ q, p = some q → q.Wide

theorem wide_none : Wide none := nofun

theorem wide_lead (b : UInt8) : Wide (lead b).2 := by
  intro q hq
  unfold lead at hq
  dsimp only at hq
  split_ifs at hq
  all_goals
    injection hq with hq
    subst hq
    refine ⟨?_, ?_, ?_, ?_⟩
    all_goals dsimp only
    all_goals omega

theorem wide_next {p : Option Begun} (hp : Wide p) (b : UInt8) : Wide (next p b).2 := by
  cases p with
  | none => exact wide_lead b
  | some p =>
    obtain ⟨hlo, hhi, hleft, hvalue⟩ := hp p rfl
    unfold next
    dsimp only
    split_ifs with hin hlast
    · exact wide_none
    · intro q hq
      injection hq with hq
      subst hq
      refine ⟨?_, ?_, ?_, ?_⟩
      all_goals dsimp only
      all_goals omega
    · exact wide_lead b

/-! ## ASCII -/

theorem lead_ascii {b : UInt8} (hb : b.toNat < 0x80) : lead b = ([ascii b], none) := if_pos hb

theorem next_ascii {p : Option Begun} (hp : Wide p) {b : UInt8} (hb : b.toNat < 0x80) :
    next p b = (broken p ++ [ascii b], none) := by
  cases p with
  | none => exact lead_ascii hb
  | some p =>
    have hlo := (hp p rfl).lo
    rw [next, if_neg (by omega), lead_ascii hb]

/-- An ASCII byte cuts the text. -/
theorem decode_append_ascii {p : Option Begun} (hp : Wide p) (xs : List UInt8) {b : UInt8} (hb : b.toNat < 0x80)
    (ys : List UInt8) : decode p (xs ++ b :: ys) = decode p xs ++ ascii b :: lossy ys := by
  induction xs generalizing p with
  | nil =>
    rw [List.nil_append, decode_cons, next_ascii hp hb, decode_nil, List.append_assoc]
    rfl
  | cons x xs ih => rw [List.cons_append, decode_cons, ih (wide_next hp x), decode_cons, List.append_assoc]

theorem lossy_append_ascii (xs : List UInt8) {b : UInt8} (hb : b.toNat < 0x80) (ys : List UInt8) :
    lossy (xs ++ b :: ys) = lossy xs ++ ascii b :: lossy ys := decode_append_ascii wide_none xs hb ys

@[simp] theorem lossy_nil : lossy [] = [] := rfl

theorem lossy_cons_ascii {b : UInt8} (hb : b.toNat < 0x80) (ys : List UInt8) : lossy (b :: ys) = ascii b :: lossy ys :=
  lossy_append_ascii [] hb ys

theorem lossy_ascii_append {xs : List UInt8} (h : ∀ b ∈ xs, b.toNat < 0x80) (ys : List UInt8) :
    lossy (xs ++ ys) = xs.map ascii ++ lossy ys := by
  induction xs with
  | nil => rfl
  | cons x xs ih =>
    rw [List.cons_append, lossy_cons_ascii (h x List.mem_cons_self), ih fun b hb => h b (List.mem_cons_of_mem x hb),
      List.map_cons, List.cons_append]

theorem toNat_ofNat {n : ℕ} (h : 0x80 ≤ n) : (Char.ofNat n).toNat = 0 ∨ 0x80 ≤ (Char.ofNat n).toNat := by
  by_cases hvalid : n.isValidChar
  · rw [Char.toNat_ofNat, if_pos hvalid]
    exact .inr h
  · rw [Char.toNat_ofNat, if_neg hvalid]
    exact .inl rfl

theorem mem_lead {b : UInt8} {c : Char} (hc : c ∈ (lead b).1) : c = ascii b ∨ 0x80 ≤ c.toNat := by
  unfold lead at hc
  dsimp only at hc
  split_ifs at hc
  all_goals simp only [List.mem_singleton, List.not_mem_nil] at hc
  · exact .inl hc
  · exact .inr (by rw [hc]; decide)

/-- What a byte adds to the text is the byte itself, or beyond ASCII. -/
theorem mem_next {p : Option Begun} (hp : Wide p) {b : UInt8} {c : Char} (hc : c ∈ (next p b).1) :
    c = ascii b ∨ c.toNat = 0 ∨ 0x80 ≤ c.toNat := by
  cases p with
  | none => exact (mem_lead hc).imp_right .inr
  | some p =>
    obtain ⟨hlo, hhi, hleft, hvalue⟩ := hp p rfl
    unfold next at hc
    dsimp only at hc
    split_ifs at hc with hin hlast
    · obtain rfl := List.mem_singleton.mp hc
      exact .inr (toNat_ofNat (by omega))
    · cases hc
    · obtain hbroken | hlead := List.mem_append.mp hc
      · obtain rfl := List.mem_singleton.mp hbroken
        exact .inr (.inr (by decide))
      · exact (mem_lead hlead).imp_right .inr

theorem mem_decode {p : Option Begun} (hp : Wide p) {bs : List UInt8} {c : Char} (hc : c ∈ decode p bs) :
    (∃ b ∈ bs, c = ascii b) ∨ c.toNat = 0 ∨ 0x80 ≤ c.toNat := by
  induction bs generalizing p with
  | nil =>
    cases p with
    | none => cases hc
    | some p =>
      obtain rfl := List.mem_singleton.mp hc
      exact .inr (.inr (by decide))
  | cons b bs ih =>
    obtain hnext | hrest := List.mem_append.mp hc
    · exact (mem_next hp hnext).imp_left fun h => ⟨b, List.mem_cons_self, h⟩
    · obtain ⟨b', hb', h⟩ | h := ih (wide_next hp b) hrest
      · exact .inl ⟨b', List.mem_cons_of_mem b hb', h⟩
      · exact .inr h

theorem toNat_ascii (b : UInt8) : (ascii b).toNat = b.toNat := by
  have hb := b.toNat_lt
  rw [ascii, Char.toNat_ofNat, if_pos (.inl (by omega))]

/-- An ASCII character of the text was a byte. -/
theorem ascii_notMem_lossy {bs : List UInt8} {b : UInt8} (hb : 0 < b.toNat) (hascii : b.toNat < 0x80) (h : b ∉ bs) :
    ascii b ∉ lossy bs := by
  intro hmem
  obtain ⟨b', hb', heq⟩ | h0 | h128 := mem_decode wide_none hmem
  · have hnat : b.toNat = b'.toNat := by rw [← toNat_ascii b, ← toNat_ascii b', heq]
    exact h (UInt8.toNat_inj.mp hnat ▸ hb')
  · rw [toNat_ascii] at h0
    omega
  · rw [toNat_ascii] at h128
    omega

/-- A byte adds to the text or begins a character. -/
theorem lead_some (b : UInt8) : (lead b).1 ≠ [] ∨ ∃ p, (lead b).2 = some p := by
  unfold lead
  dsimp only
  split_ifs
  all_goals simp

theorem next_some (p : Option Begun) (b : UInt8) : (next p b).1 ≠ [] ∨ ∃ q, (next p b).2 = some q := by
  cases p with
  | none => exact lead_some b
  | some p =>
    unfold next
    dsimp only
    split_ifs
    all_goals simp [broken]

theorem decode_some_ne_nil (p : Begun) (bs : List UInt8) : decode (some p) bs ≠ [] := by
  induction bs generalizing p with
  | nil => simp [decode_nil, broken]
  | cons b bs ih =>
    rw [decode_cons]
    intro hnil
    obtain ⟨hfirst, hrest⟩ := List.append_eq_nil_iff.mp hnil
    obtain hne | ⟨q, hq⟩ := next_some (some p) b
    · exact hne hfirst
    · rw [hq] at hrest
      exact ih q hrest

/-- Some bytes give some text. -/
theorem lossy_eq_nil {bs : List UInt8} : lossy bs = [] ↔ bs = [] := by
  refine ⟨fun h => ?_, fun h => h ▸ rfl⟩
  cases bs with
  | nil => rfl
  | cons b bs =>
    obtain ⟨hfirst, hrest⟩ := List.append_eq_nil_iff.mp h
    obtain hne | ⟨q, hq⟩ := next_some none b
    · exact absurd hfirst hne
    · rw [hq] at hrest
      exact absurd hrest (decode_some_ne_nil q bs)

end Utf8
