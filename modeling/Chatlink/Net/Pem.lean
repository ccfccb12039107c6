import Chatlink.Lib.Ascii
import Chatlink.Lib.Base64
import Chatlink.Lib.Split

/-!
# Certificates in a text

A bundle is a text with blocks between two markers. The reader shifts six bits a digit into a register that it never
clears; only bits that came in since the last byte reach the next one. Blocks that are not digits are passed over.
-/
namespace Chatlink.Net.Pem

open Ascii Base64 Split

def ALPHABET : List UInt8 := byteString "ABCDEFGHIJKLMNOPQRSTUVWXYZabcdefghijklmnopqrstuvwxyz0123456789+/"

def BEGIN_CERTIFICATE : List UInt8 := byteString "-----BEGIN CERTIFICATE-----"

def END_CERTIFICATE : List UInt8 := byteString "-----END CERTIFICATE-----"

/-- The bytes so far, the register and how many of its bits are not out yet; no result for another byte. -/
def pemStep (st : List UInt8 × UInt32 × ℕ) (c : UInt8) : Option (List UInt8 × UInt32 × ℕ) :=
  let sextet := ALPHABET.idxOf c
  if sextet < 64 then
    let n := st.2.1 <<< 6 ||| UInt32.ofNat sextet
    let bits := st.2.2 + 6
    if 8 ≤ bits then some (st.1 ++ [(n >>> UInt32.ofNat (bits - 8)).toUInt8], n, bits - 8)
    else some (st.1, n, bits)
  else none

/-- Whether a byte of a block counts. -/
def pemDigit (c : UInt8) : Bool := !isWhitespace c && c != 0x3d

def pemBlock (body : List UInt8) : Option (List UInt8) :=
  ((body.filter pemDigit).foldlM pemStep ([], 0, 0)).map (·.1)

/-- The blocks of a text, in order. What is read on from behind a block is its end marker. -/
def pemCertificates (text : List UInt8) : List (List UInt8) :=
  match _hb : cut BEGIN_CERTIFICATE text with
  | none => []
  | some (_, body) =>
    match _he : cut END_CERTIFICATE body with
    | none => []
    | some (block, after) => (pemBlock block).toList ++ pemCertificates (END_CERTIFICATE ++ after)
termination_by text.length
decreasing_by
  have htext := append_of_cut _hb
  have hbody := append_of_cut _he
  have hmark : 0 < BEGIN_CERTIFICATE.length := by decide
  simp only [htext, hbody, List.length_append]
  omega

theorem pemCertificates_none {text : List UInt8} (h : cut BEGIN_CERTIFICATE text = none) : pemCertificates text = [] := by
  rw [pemCertificates]
  split
  · rfl
  · rename_i hb
    rw [h] at hb
    exact absurd hb.symm (Option.some_ne_none _)

theorem pemCertificates_block {text before body block after : List UInt8}
    (hb : cut BEGIN_CERTIFICATE text = some (before, body)) (he : cut END_CERTIFICATE body = some (block, after)) :
    pemCertificates text = (pemBlock block).toList ++ pemCertificates (END_CERTIFICATE ++ after) := by
  rw [pemCertificates]
  split
  · rename_i hn
    rw [hb] at hn
    exact absurd hn (Option.some_ne_none _)
  · rename_i p body' hb'
    rw [hb] at hb'
    obtain ⟨-, rfl⟩ := Prod.mk.inj (Option.some.inj hb')
    split
    · rename_i hn
      rw [he] at hn
      exact absurd hn (Option.some_ne_none _)
    · rename_i block' after' he'
      rw [he] at he'
      obtain ⟨rfl, rfl⟩ := Prod.mk.inj (Option.some.inj he')
      rfl

/-! ## Digits through the register -/

section

variable {der : List UInt8} {n : UInt32}

theorem alphabet_eq : ALPHABET = (List.range 64).map digit := by decide

theorem alphabet_nodup : ALPHABET.Nodup := by
  rw [alphabet_eq]
  decide

theorem idxOf_digit {s : ℕ} (hs : s < 64) : ALPHABET.idxOf (digit s) = s := by
  have hlen : s < ALPHABET.length := by rwa [alphabet_eq, List.length_map, List.length_range]
  have hget : ALPHABET[s] = digit s := by simp [alphabet_eq]
  rw [← hget]
  exact alphabet_nodup.idxOf_getElem s hlen

/-- The register after a digit. -/
theorem toNat_shifted (n : UInt32) {s : ℕ} (hs : s < 64) :
    (n <<< 6 ||| UInt32.ofNat s).toNat = (n.toNat * 64 + s) % 2 ^ 32 := by
  have hshift : n.toNat <<< 6 % 2 ^ 32 = (n.toNat % 2 ^ 26) <<< 6 := by
    rw [Nat.shiftLeft_eq, Nat.shiftLeft_eq]
    omega
  have hword : (UInt32.ofNat s).toNat = s := UInt32.toNat_ofNat_of_lt' (hs.trans (by decide))
  rw [UInt32.toNat_or, UInt32.toNat_shiftLeft, hword, show (6 : UInt32).toNat % 32 = 6 by rfl, hshift,
    ← Nat.shiftLeft_add_eq_or_of_lt (show s < 2 ^ 6 by omega), Nat.shiftLeft_eq]
  omega

/-- The byte that lies `k` bits up in the register. -/
theorem toUInt8_shifted (n : UInt32) {k : ℕ} (hk : k < 32) :
    (n >>> UInt32.ofNat k).toUInt8 = UInt8.ofNat (n.toNat / 2 ^ k) := by
  have hword : (UInt32.ofNat k).toNat = k := UInt32.toNat_ofNat_of_lt' (hk.trans (by decide))
  apply UInt8.toNat_inj.mp
  rw [UInt32.toNat_toUInt8, UInt32.toNat_shiftRight, hword, Nat.mod_eq_of_lt hk, Nat.shiftRight_eq_div_pow,
    UInt8.toNat_ofNat']

theorem pemStep_digit (der : List UInt8) (n : UInt32) (bits : ℕ) {s : ℕ} (hs : s < 64) :
    pemStep (der, n, bits) (digit s) =
      if 8 ≤ bits + 6 then
        some (der ++ [((n <<< 6 ||| UInt32.ofNat s) >>> UInt32.ofNat (bits + 6 - 8)).toUInt8],
          n <<< 6 ||| UInt32.ofNat s, bits + 6 - 8)
      else some (der, n <<< 6 ||| UInt32.ofNat s, bits + 6) := by
  rw [pemStep, idxOf_digit hs]
  simp only [if_pos hs]

/-- Two digits on a byte's border hold its eight bits, whatever the register held before. -/
theorem pem_two (der : List UInt8) (n : UInt32) {s₀ s₁ : ℕ} (h₀ : s₀ < 64) (h₁ : s₁ < 64) :
    ∃ n', [digit s₀, digit s₁].foldlM pemStep (der, n, 0) = some (der ++ [UInt8.ofNat (s₀ * 4 + s₁ / 16)], n', 4) ∧
      n'.toNat % 64 = s₁ := by
  refine ⟨(n <<< 6 ||| UInt32.ofNat s₀) <<< 6 ||| UInt32.ofNat s₁, ?_, ?_⟩
  · have hbyte : UInt8.ofNat (((n.toNat * 64 + s₀) % 2 ^ 32 * 64 + s₁) % 2 ^ 32 / 2 ^ 4) =
        UInt8.ofNat (s₀ * 4 + s₁ / 16) := by
      apply UInt8.toNat_inj.mp
      rw [UInt8.toNat_ofNat', UInt8.toNat_ofNat']
      omega
    rw [List.foldlM_cons, pemStep_digit _ _ _ h₀]
    simp only [List.foldlM_cons, List.foldlM_nil, pemStep_digit _ _ _ h₁, Option.bind_eq_bind, Option.bind_some,
      Option.pure_def, Nat.reduceAdd, Nat.reduceSub, Nat.reduceLeDiff, if_true, if_false]
    rw [toUInt8_shifted _ (by decide), toNat_shifted _ h₁, toNat_shifted _ h₀, hbyte]
  · rw [toNat_shifted _ h₁]
    omega

theorem pem_third (der : List UInt8) {s₁ s₂ : ℕ} (hn : n.toNat % 64 = s₁) (h₂ : s₂ < 64) :
    ∃ n', pemStep (der, n, 4) (digit s₂) = some (der ++ [UInt8.ofNat (s₁ % 16 * 16 + s₂ / 4)], n', 2) ∧
      n'.toNat % 64 = s₂ := by
  refine ⟨n <<< 6 ||| UInt32.ofNat s₂, ?_, ?_⟩
  · have hbyte : UInt8.ofNat ((n.toNat * 64 + s₂) % 2 ^ 32 / 2 ^ 2) = UInt8.ofNat (s₁ % 16 * 16 + s₂ / 4) := by
      apply UInt8.toNat_inj.mp
      rw [UInt8.toNat_ofNat', UInt8.toNat_ofNat']
      omega
    rw [pemStep_digit _ _ _ h₂, if_pos (by decide), toUInt8_shifted _ (by decide), toNat_shifted _ h₂, hbyte]
  · rw [toNat_shifted _ h₂]
    omega

theorem pem_fourth (der : List UInt8) {s₂ s₃ : ℕ} (hn : n.toNat % 64 = s₂) (h₃ : s₃ < 64) :
    ∃ n', pemStep (der, n, 2) (digit s₃) = some (der ++ [UInt8.ofNat (s₂ % 4 * 64 + s₃)], n', 0) := by
  refine ⟨n <<< 6 ||| UInt32.ofNat s₃, ?_⟩
  have hbyte : UInt8.ofNat ((n.toNat * 64 + s₃) % 2 ^ 32 / 2 ^ 0) = UInt8.ofNat (s₂ % 4 * 64 + s₃) := by
    apply UInt8.toNat_inj.mp
    rw [UInt8.toNat_ofNat', UInt8.toNat_ofNat']
    omega
  rw [pemStep_digit _ _ _ h₃, if_pos (by decide), toUInt8_shifted _ (by decide), toNat_shifted _ h₃, hbyte]

/-- Further digits go on from what the first ones leave. -/
theorem pem_append {st st' : List UInt8 × UInt32 × ℕ} {cs : List UInt8} (h : cs.foldlM pemStep st = some st')
    (ds : List UInt8) : (cs ++ ds).foldlM pemStep st = ds.foldlM pemStep st' := by
  rw [List.foldlM_append, h]
  rfl

/-- The digits of bytes give those bytes back, whatever the register held before. -/
theorem pem_sextets (der acc : List UInt8) (n : UInt32) :
    ∃ n' bits, ((sextets der).map digit).foldlM pemStep (acc, n, 0) = some (acc ++ der, n', bits) := by
  induction der using sextets.induct generalizing acc n with
  | case1 => exact ⟨n, 0, by rw [List.append_nil]; rfl⟩
  | case2 a =>
    have ha := a.toNat_lt
    have h₀ : a.toNat / 4 < 64 := by omega
    have h₁ : a.toNat % 4 * 16 < 64 := by omega
    obtain ⟨n', htwo, -⟩ := pem_two acc n h₀ h₁
    rw [show a.toNat / 4 * 4 + a.toNat % 4 * 16 / 16 = a.toNat by omega, UInt8.ofNat_toNat] at htwo
    exact ⟨n', 4, htwo⟩
  | case3 a b =>
    have ha := a.toNat_lt
    have hb := b.toNat_lt
    have h₀ : a.toNat / 4 < 64 := by omega
    have h₁ : a.toNat % 4 * 16 + b.toNat / 16 < 64 := by omega
    have h₂ : b.toNat % 16 * 4 < 64 := by omega
    obtain ⟨n', htwo, hn'⟩ := pem_two acc n h₀ h₁
    rw [show a.toNat / 4 * 4 + (a.toNat % 4 * 16 + b.toNat / 16) / 16 = a.toNat by omega, UInt8.ofNat_toNat] at htwo
    obtain ⟨n'', hthree, -⟩ := pem_third (acc ++ [a]) hn' h₂
    rw [show (a.toNat % 4 * 16 + b.toNat / 16) % 16 * 16 + b.toNat % 16 * 4 / 4 = b.toNat by omega, UInt8.ofNat_toNat,
      List.append_assoc] at hthree
    have hrun := pem_append htwo [digit (b.toNat % 16 * 4)]
    rw [List.foldlM_cons, hthree] at hrun
    exact ⟨n'', 2, hrun⟩
  | case4 a b c bs ih =>
    have ha := a.toNat_lt
    have hb := b.toNat_lt
    have hc := c.toNat_lt
    have h₀ : a.toNat / 4 < 64 := by omega
    have h₁ : a.toNat % 4 * 16 + b.toNat / 16 < 64 := by omega
    have h₂ : b.toNat % 16 * 4 + c.toNat / 64 < 64 := by omega
    have h₃ : c.toNat % 64 < 64 := by omega
    obtain ⟨n', htwo, hn'⟩ := pem_two acc n h₀ h₁
    rw [show a.toNat / 4 * 4 + (a.toNat % 4 * 16 + b.toNat / 16) / 16 = a.toNat by omega, UInt8.ofNat_toNat] at htwo
    obtain ⟨n'', hthree, hn''⟩ := pem_third (acc ++ [a]) hn' h₂
    rw [show (a.toNat % 4 * 16 + b.toNat / 16) % 16 * 16 + (b.toNat % 16 * 4 + c.toNat / 64) / 4 = b.toNat by omega,
      UInt8.ofNat_toNat, List.append_assoc] at hthree
    obtain ⟨n₃, hfour⟩ := pem_fourth (acc ++ ([a] ++ [b])) hn'' h₃
    rw [show (b.toNat % 16 * 4 + c.toNat / 64) % 4 * 64 + c.toNat % 64 = c.toNat by omega, UInt8.ofNat_toNat,
      List.append_assoc] at hfour
    obtain ⟨m, bits, hrest⟩ := ih (acc ++ ([a] ++ [b] ++ [c])) n₃
    have hrun := pem_append htwo
      (digit (b.toNat % 16 * 4 + c.toNat / 64) :: digit (c.toNat % 64) :: (sextets bs).map digit)
    rw [List.foldlM_cons, hthree, Option.bind_eq_bind, Option.bind_some, List.foldlM_cons, hfour, Option.bind_eq_bind,
      Option.bind_some, hrest, List.append_assoc] at hrun
    exact ⟨m, bits, hrun⟩

theorem digit_props {s : ℕ} (hs : s < 64) : pemDigit (digit s) = true ∧ digit s ≠ 0x2d := by
  have h : ∀ s < 64, pemDigit (digit s) = true ∧ digit s ≠ 0x2d := by decide
  exact h s hs

theorem filter_encode (der : List UInt8) : (encode der).filter pemDigit = (sextets der).map digit := by
  have hdigits : ((sextets der).map digit).filter pemDigit = (sextets der).map digit := by
    rw [List.filter_eq_self]
    intro c hc
    obtain ⟨s, hs, rfl⟩ := List.mem_map.mp hc
    exact (digit_props (sextets_lt der s hs)).1
  have hmarks : (List.replicate ((3 - der.length % 3) % 3) mark).filter pemDigit = [] := by
    rw [List.filter_eq_nil_iff]
    intro c hc
    rw [List.eq_of_mem_replicate hc]
    decide
  rw [encode, List.filter_append, hdigits, hmarks, List.append_nil]

/-- A block of lines of any width and ending is read as the bytes it encodes. -/
theorem pemBlock_lines {width : ℕ} (hw : 0 < width) {eol : List UInt8} (heol : ∀ c ∈ eol, isWhitespace c = true)
    (der : List UInt8) : pemBlock (eol ++ lines width eol (encode der)) = some der := by
  have hskip : ∀ c ∈ eol, pemDigit c = false := fun c hc => by rw [pemDigit, heol c hc]; rfl
  have hnone : eol.filter pemDigit = [] := List.filter_eq_nil_iff.mpr fun c hc => by simp [hskip c hc]
  obtain ⟨n, bits, hrun⟩ := pem_sextets der [] 0
  rw [pemBlock, List.filter_append, hnone, List.nil_append, filter_lines hw hskip, filter_encode, hrun]
  rfl

/-- A block with another byte is passed over. -/
theorem pemBlock_none {body : List UInt8} {c : UInt8} (hc : c ∈ body) (hdigit : pemDigit c = true)
    (halpha : c ∉ ALPHABET) : pemBlock body = none := by
  have hmem : c ∈ body.filter pemDigit := List.mem_filter.mpr ⟨hc, hdigit⟩
  have hidx : ALPHABET.idxOf c = 64 := by
    rw [List.idxOf_eq_length halpha, alphabet_eq, List.length_map, List.length_range]
  have hrun : ∀ (cs : List UInt8) st, c ∈ cs → cs.foldlM pemStep st = none := by
    intro cs
    induction cs with
    | nil => exact fun _ h => absurd h List.not_mem_nil
    | cons d cs ih =>
      intro st h
      rw [List.foldlM_cons]
      rcases List.mem_cons.mp h with rfl | h
      · rw [pemStep, hidx]
        rfl
      · cases pemStep st d with
        | none => rfl
        | some st' => exact ih st' h
  rw [pemBlock, hrun _ _ hmem]
  rfl

end

/-! ## Bundles -/

/-- What stands between the markers of a block. -/
inductive PemBody where
  /-- The bytes, in lines of a width with an ending. -/
  | encoded (der : List UInt8) (width : ℕ) (eol : List UInt8)
  /-- Anything else without a dash. -/
  | other (body : List UInt8)

def PemBody.text : PemBody → List UInt8
  | .encoded der width eol => eol ++ lines width eol (encode der)
  | .other body => body

/-- The bytes, if they are encoded. -/
def PemBody.der : PemBody → Option (List UInt8)
  | .encoded der _ _ => some der
  | .other _ => none

/-- An encoder's block, or one with a byte that is neither a dash nor of the encoding. -/
def PemBody.WellFormed : PemBody → Prop
  | .encoded _ width eol => 0 < width ∧ ∀ c ∈ eol, isWhitespace c = true
  | .other body => 0x2d ∉ body ∧ ∃ c ∈ body, pemDigit c = true ∧ c ∉ ALPHABET

/-- A text in which no block begins, not even with the dashes of the markers around it. -/
def Quiet (gap : List UInt8) : Prop :=
  ¬BEGIN_CERTIFICATE <:+: List.replicate 5 0x2d ++ gap ++ BEGIN_CERTIFICATE.dropLast

/-- Blocks, each behind a text, and a text behind all. -/
def bundle (blocks : List (List UInt8 × PemBody)) (last : List UInt8) : List UInt8 :=
  blocks.flatMap (fun b => b.1 ++ BEGIN_CERTIFICATE ++ b.2.text ++ END_CERTIFICATE) ++ last

section

theorem PemBody.WellFormed.pemBlock_text {b : PemBody} (h : b.WellFormed) : pemBlock b.text = b.der := by
  cases b with
  | encoded der width eol => exact pemBlock_lines h.1 h.2 der
  | other body =>
    obtain ⟨-, c, hc, hdigit, halpha⟩ := h
    exact pemBlock_none hc hdigit halpha

theorem PemBody.WellFormed.notMem_dash {b : PemBody} (h : b.WellFormed) : 0x2d ∉ b.text := by
  cases b with
  | encoded der width eol =>
    have heol : (0x2d : UInt8) ∉ eol := fun hmem => absurd (h.2 _ hmem) (by decide)
    have hcode : (0x2d : UInt8) ∉ encode der := by
      intro hmem
      rcases List.mem_append.mp hmem with hmem | hmem
      · obtain ⟨s, hs, heq⟩ := List.mem_map.mp hmem
        exact (digit_props (sextets_lt der s hs)).2 heq
      · exact absurd (List.eq_of_mem_replicate hmem) (by decide)
    intro hmem
    rcases List.mem_append.mp hmem with hmem | hmem
    · exact heol hmem
    · rcases mem_lines h.1 hmem with hmem | hmem
      · exact hcode hmem
      · exact heol hmem
  | other body => exact h.1

theorem Quiet.after_end {gap : List UInt8} (h : Quiet gap) :
    ¬BEGIN_CERTIFICATE <:+: END_CERTIFICATE ++ gap ++ BEGIN_CERTIFICATE.dropLast := by
  have htails : ∀ t ∈ (END_CERTIFICATE.take 20).tails, t ≠ [] →
      ¬(t ++ List.replicate 5 0x2d) <+: BEGIN_CERTIFICATE ∧ ¬BEGIN_CERTIFICATE <+: t ++ List.replicate 5 0x2d := by
    decide
  have hend : END_CERTIFICATE = END_CERTIFICATE.take 20 ++ List.replicate 5 0x2d := by decide
  rw [hend, List.append_assoc]
  apply not_infix_append htails
  rwa [Quiet, List.append_assoc] at h

theorem Quiet.alone {gap : List UInt8} (h : Quiet gap) : ¬BEGIN_CERTIFICATE <:+: gap ++ BEGIN_CERTIFICATE.dropLast := by
  rw [Quiet, List.append_assoc] at h
  exact fun hin => h (hin.trans (List.suffix_append _ _).isInfix)

theorem not_infix_short {xs : List UInt8} (h : xs.length < 27) : ¬BEGIN_CERTIFICATE <:+: xs := by
  intro hin
  have hle := hin.length_le
  rw [show BEGIN_CERTIFICATE.length = 27 by decide] at hle
  omega

theorem break_notMem {c : UInt8} (hc : c = 0x0a ∨ c = 0x0d) : c ∉ BEGIN_CERTIFICATE := by
  rcases hc with rfl | rfl
  · decide
  · decide

theorem quiet_break {c : UInt8} (hc : c = 0x0a ∨ c = 0x0d) : Quiet [c] := by
  rw [Quiet, List.append_assoc, List.singleton_append]
  intro hin
  rcases infix_side (break_notMem hc) hin with hin | hin
  · exact not_infix_short (by decide) hin
  · exact not_infix_short (by decide) hin

/-- A text of whole lines without the marker. -/
theorem quiet_lines {c d : UInt8} {mid : List UInt8} (hc : c = 0x0a ∨ c = 0x0d) (hd : d = 0x0a ∨ d = 0x0d)
    (hmid : ¬BEGIN_CERTIFICATE <:+: mid) : Quiet (c :: (mid ++ [d])) := by
  rw [Quiet, List.append_assoc, List.cons_append, List.append_assoc]
  intro hin
  rcases infix_side (break_notMem hc) hin with hin | hin
  · exact not_infix_short (by decide) hin
  · rcases infix_side (break_notMem hd) hin with hin | hin
    · exact hmid hin
    · exact not_infix_short (by decide) hin

/-- Behind nothing or behind a block, the next block is found where it begins. -/
theorem pem_next {head gap : List UInt8} (rest : List UInt8) {b : PemBody} (hhead : head = [] ∨ head = END_CERTIFICATE)
    (hgap : Quiet gap) (hb : b.WellFormed) :
    pemCertificates (head ++ (gap ++ BEGIN_CERTIFICATE ++ b.text ++ END_CERTIFICATE ++ rest)) =
      b.der.toList ++ pemCertificates (END_CERTIFICATE ++ rest) := by
  have hquiet : ¬BEGIN_CERTIFICATE <:+: (head ++ gap) ++ BEGIN_CERTIFICATE.dropLast := by
    rcases hhead with rfl | rfl
    · exact hgap.alone
    · exact hgap.after_end
  have hbegin : cut BEGIN_CERTIFICATE (head ++ gap ++ BEGIN_CERTIFICATE ++ (b.text ++ END_CERTIFICATE ++ rest)) =
      some (head ++ gap, b.text ++ END_CERTIFICATE ++ rest) := cut_of_not_infix (by decide) hquiet
  have hend : cut END_CERTIFICATE (b.text ++ END_CERTIFICATE ++ rest) = some (b.text, rest) := by
    have hdash : END_CERTIFICATE = 0x2d :: END_CERTIFICATE.tail := by decide
    rw [hdash]
    exact cut_of_notMem hb.notMem_dash
  have htext : head ++ (gap ++ BEGIN_CERTIFICATE ++ b.text ++ END_CERTIFICATE ++ rest) =
      head ++ gap ++ BEGIN_CERTIFICATE ++ (b.text ++ END_CERTIFICATE ++ rest) := by
    simp only [List.append_assoc]
  rw [htext, pemCertificates_block hbegin hend, hb.pemBlock_text]

/-- The encoded blocks of a text come out as they went in, in order, and the others do not. -/
theorem pem_bundle (blocks : List (List UInt8 × PemBody)) (last : List UInt8)
    (hblocks : ∀ b ∈ blocks, Quiet b.1 ∧ b.2.WellFormed) (hlast : Quiet last) :
    pemCertificates (bundle blocks last) = blocks.filterMap fun b => b.2.der := by
  have hrun : ∀ head, head = [] ∨ head = END_CERTIFICATE →
      pemCertificates (head ++ bundle blocks last) = blocks.filterMap fun b => b.2.der := by
    induction blocks with
    | nil =>
      intro head hhead
      have hquiet : ¬BEGIN_CERTIFICATE <:+: (head ++ last) ++ BEGIN_CERTIFICATE.dropLast := by
        rcases hhead with rfl | rfl
        · exact hlast.alone
        · exact hlast.after_end
      have hnone : ¬BEGIN_CERTIFICATE <:+: head ++ last := fun hin =>
        hquiet (hin.trans (List.prefix_append _ _).isInfix)
      exact pemCertificates_none (cut_of_not_infix_self hnone)
    | cons b blocks ih =>
      intro head hhead
      obtain ⟨hgap, hb⟩ := hblocks b List.mem_cons_self
      have hnext := pem_next (bundle blocks last) hhead hgap hb
      rw [ih (fun b' h => hblocks b' (List.mem_cons_of_mem _ h)) END_CERTIFICATE (.inr rfl)] at hnext
      rw [bundle, List.flatMap_cons, List.append_assoc, ← bundle, hnext]
      cases hder : b.2.der with
      | none =>
        rw [List.filterMap_cons, hder]
        rfl
      | some der =>
        rw [List.filterMap_cons, hder]
        rfl
  exact hrun [] (.inl rfl)

theorem pem_bundle_three : pemCertificates (bundle [([0x0a], .encoded [0x30, 0x00] 64 [0x0a]),
      ([0x0a], .other [0x2a]), ([0x0a, 0x23, 0x0a], .encoded [0x30] 1 [0x0d, 0x0a])] [0x0a]) = [[0x30, 0x00], [0x30]] :=
  pem_bundle _ _ (List.forall_mem_cons.mpr ⟨⟨quiet_break (.inl rfl), by decide, by simp [isWhitespace]⟩, List.forall_mem_cons.mpr
    ⟨⟨quiet_break (.inl rfl), by decide, 0x2a, by decide, by decide, by decide⟩, List.forall_mem_cons.mpr
      ⟨⟨@quiet_lines 0x0a 0x0a [0x23] (.inl rfl) (.inl rfl) (not_infix_short (by decide)), by decide, by simp [isWhitespace]⟩,
        fun _ h => absurd h List.not_mem_nil⟩⟩⟩) (quiet_break (.inl rfl))

end

end Chatlink.Net.Pem
