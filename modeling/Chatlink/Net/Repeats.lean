import Chatlink.Net.Messages

/-!
# Extensions that are sent twice

An extension block is a list of types with their data. The types seen so far are the bits of a 64-bit word, so a type
from 64 on is never seen again: a block is read exactly when its types below 64 are distinct, and it is refused as it
should be where those from 64 on are too.
-/
namespace Chatlink.Net

variable {bs rest rest' v input : List UInt8} {n width : ℕ}

namespace Reading

theorem bytes_append (v rest : List UInt8) : bytes v.length (v ++ rest) = .ok (v, rest) := by
  rw [bytes, if_pos (by simp), List.take_left, List.drop_left]

theorem int_bigBytes (h : n < 256 ^ width) (rest : List UInt8) :
    int width (bigBytes width n ++ rest) = .ok (n, rest) := by
  have hbytes := bytes_append (bigBytes width n) rest
  rw [length_bigBytes] at hbytes
  change (bytes width (bigBytes width n ++ rest) >>= fun p => .ok (big p.1, p.2)) = _
  rw [hbytes]
  change Except.ok (big (bigBytes width n), rest) = _
  rw [big_bigBytes h]

theorem vec_prefixed (h : v.length < 256 ^ width) (rest : List UInt8) :
    vec width (prefixed width v ++ rest) = .ok (v, rest) := by
  change (int width (prefixed width v ++ rest) >>= fun p => bytes p.1 p.2) = _
  rw [prefixed, List.append_assoc, int_bigBytes h]
  exact bytes_append v rest

/-- The bytes of extensions, each a type and its data. -/
def encoding (exts : List (ℕ × List UInt8)) : List UInt8 := exts.flatMap fun x => extension x.1 x.2

@[simp] theorem encoding_nil : encoding [] = [] := rfl

theorem encoding_cons (x : ℕ × List UInt8) (exts : List (ℕ × List UInt8)) :
    encoding (x :: exts) = bigBytes 2 x.1 ++ (prefixed 2 x.2 ++ encoding exts) := by
  rw [encoding, List.flatMap_cons, extension, List.append_assoc]
  rfl

/-- Types and lengths have 16 bits. -/
def WellFormed (exts : List (ℕ × List UInt8)) : Prop :=
  ∀ x ∈ exts, x.1 < 256 ^ 2 ∧ x.2.length < 256 ^ 2

/-- The types below 64 are distinct. -/
def LowDistinct (exts : List (ℕ × List UInt8)) : Prop :=
  ((exts.map Prod.fst).filter (· < 64)).Nodup

/-- The callback takes in every extension in turn. -/
def Accepts {σ : Type} (each : σ → ℕ → List UInt8 → Except TlsError σ) (acc : σ)
    (exts : List (ℕ × List UInt8)) (acc' : σ) : Prop :=
  exts.foldlM (fun acc x => each acc x.1 x.2) acc = .ok acc'

section Extensions

variable {σ : Type} {each : σ → ℕ → List UInt8 → Except TlsError σ} {acc acc' : σ} {fuel seen : ℕ}
  {exts : List (ℕ × List UInt8)}

theorem lowDistinct_cons {x : ℕ × List UInt8} : LowDistinct (x :: exts) ↔
    (x.1 < 64 → ∀ y ∈ exts, y.1 ≠ x.1) ∧ LowDistinct exts := by
  unfold LowDistinct
  rw [List.map_cons, List.filter_cons]
  by_cases hx : x.1 < 64
  · rw [if_pos (by simpa using hx), List.nodup_cons]
    simp [hx]
    grind
  · rw [if_neg (by simpa using hx)]
    simp [hx]

/-- The types below 64 are distinct, and none of them has been seen. -/
def Fresh (seen : ℕ) (exts : List (ℕ × List UInt8)) : Prop :=
  LowDistinct exts ∧ ∀ x ∈ exts, x.1 < 64 → seen.testBit x.1 = false

theorem testBit_mark {kind i : ℕ} : (seen ||| 1 <<< kind).testBit i = (seen.testBit i || decide (kind = i)) := by
  rw [Nat.testBit_or, Nat.one_shiftLeft, Nat.testBit_two_pow]

/-- One extension more: its type was not seen, and is from then on. -/
theorem fresh_cons {x : ℕ × List UInt8} : Fresh seen (x :: exts) ↔
    (x.1 < 64 && seen.testBit x.1) = false ∧
      Fresh (if x.1 < 64 then seen ||| 1 <<< x.1 else seen) exts := by
  unfold Fresh
  rw [lowDistinct_cons, List.forall_mem_cons]
  by_cases hx : x.1 < 64
  · simp only [hx, if_true, testBit_mark, Bool.or_eq_false_iff, decide_eq_false_iff_not, decide_true,
      Bool.true_and, forall_true_left]
    constructor
    · rintro ⟨⟨hne, hlow⟩, hseen, hrest⟩
      exact ⟨hseen, hlow, fun y hy hlt => ⟨hrest y hy hlt, (hne y hy).symm⟩⟩
    · rintro ⟨hseen, hlow, hrest⟩
      refine ⟨⟨fun y hy heq => ?_, hlow⟩, hseen, fun y hy hlt => (hrest y hy hlt).1⟩
      exact (hrest y hy (heq ▸ hx)).2 heq.symm
  · simp only [hx, if_false, false_implies, true_and, decide_false, Bool.false_and]

theorem accepts_cons {x : ℕ × List UInt8} : Accepts each acc (x :: exts) acc' ↔
    ∃ acc₁, each acc x.1 x.2 = .ok acc₁ ∧ Accepts each acc₁ exts acc' := by
  unfold Accepts
  rw [List.foldlM_cons]
  constructor
  · exact Lists.bind_eq_ok
  · rintro ⟨acc₁, hx, h⟩
    rw [hx]
    exact h

/-- One extension read from the front of a block. -/
theorem extensionsFrom_cons (x : ℕ × List UInt8) (hx : x.1 < 256 ^ 2 ∧ x.2.length < 256 ^ 2) :
    extensionsFrom each (fuel + 1) seen acc (bigBytes 2 x.1 ++ (prefixed 2 x.2 ++ rest)) =
      if x.1 < 64 && seen.testBit x.1 then .error (.locally .illegalParameter)
      else each acc x.1 x.2 >>= fun acc =>
        extensionsFrom each fuel (if x.1 < 64 then seen ||| 1 <<< x.1 else seen) acc rest := by
  have hne : bigBytes 2 x.1 ++ (prefixed 2 x.2 ++ rest) ≠ [] := by
    rw [← List.length_pos_iff, List.length_append, length_bigBytes]
    omega
  obtain ⟨b, bs, hcons⟩ := List.exists_cons_of_ne_nil hne
  rw [hcons, extensionsFrom, ← hcons, int_bigBytes hx.1]
  · change (vec 2 (prefixed 2 x.2 ++ rest) >>= _) = _
    rw [vec_prefixed hx.2]
    rfl
  · exact List.cons_ne_nil b bs

/-- A block is read when it is a row of extensions of fresh types that the callback takes in. -/
theorem extensionsFrom_eq_ok_iff (hfuel : rest.length ≤ fuel) :
    extensionsFrom each fuel seen acc rest = .ok acc' ↔
      ∃ exts, WellFormed exts ∧ rest = encoding exts ∧ Fresh seen exts ∧ Accepts each acc exts acc' := by
  constructor
  · intro h
    induction fuel generalizing seen acc rest with
    | zero =>
      obtain rfl : rest = [] := List.length_eq_zero_iff.mp (by omega)
      exact ⟨[], nofun, rfl, ⟨List.nodup_nil, nofun⟩, h⟩
    | succ fuel ih =>
      by_cases hrest : rest = []
      · subst hrest
        exact ⟨[], nofun, rfl, ⟨List.nodup_nil, nofun⟩, h⟩
      obtain ⟨b, bs, rfl⟩ := List.exists_cons_of_ne_nil hrest
      obtain ⟨⟨kind, r⟩, hkind, -⟩ := Lists.bind_eq_ok h
      obtain ⟨⟨data, r'⟩, hdata, -⟩ : ∃ p, vec 2 r = .ok p ∧ True := by
        obtain ⟨p, hp, hp'⟩ := Lists.bind_eq_ok h
        obtain rfl := Except.ok.inj (hkind.symm.trans hp)
        obtain ⟨q, hq, -⟩ := Lists.bind_eq_ok hp'
        exact ⟨q, hq, trivial⟩
      obtain ⟨hsplit, hlt⟩ := int_eq_ok hkind
      obtain ⟨rfl, hlen⟩ := vec_eq_ok hdata
      have hshort : r'.length ≤ fuel := by
        have := congrArg List.length hsplit
        simp only [List.length_append, length_bigBytes, List.length_cons] at this hfuel
        omega
      rw [hsplit, extensionsFrom_cons (kind, data) ⟨hlt, hlen⟩] at h
      by_cases hseen : (kind < 64 && seen.testBit kind) = true
      · rw [if_pos hseen] at h
        cases h
      rw [if_neg hseen] at h
      obtain ⟨acc₁, hacc, h⟩ := Lists.bind_eq_ok h
      obtain ⟨exts, hwf, rfl, hfresh, haccepts⟩ := ih hshort h
      refine ⟨(kind, data) :: exts, List.forall_mem_cons.mpr ⟨⟨hlt, hlen⟩, hwf⟩, ?_, ?_, ?_⟩
      · rw [hsplit, encoding_cons]
      · exact fresh_cons.mpr ⟨by simpa using hseen, hfresh⟩
      · exact accepts_cons.mpr ⟨acc₁, hacc, haccepts⟩
  · rintro ⟨exts, hwf, rfl, hfresh, haccepts⟩
    induction exts generalizing fuel seen acc with
    | nil =>
      obtain rfl := Except.ok.inj haccepts
      cases fuel <;> rfl
    | cons x exts ih =>
      obtain ⟨hx, hwf⟩ := List.forall_mem_cons.mp hwf
      obtain ⟨hseen, hfresh⟩ := fresh_cons.mp hfresh
      obtain ⟨acc₁, hacc, haccepts⟩ := accepts_cons.mp haccepts
      rw [encoding_cons, List.length_append, List.length_append, length_bigBytes] at hfuel
      obtain ⟨fuel, rfl⟩ : ∃ k, fuel = k + 1 := ⟨fuel - 1, by omega⟩
      rw [encoding_cons, extensionsFrom_cons _ hx, if_neg (by simp [hseen]), hacc]
      exact ih hwf (by omega) hfresh haccepts

theorem encoding_inj {exts exts' : List (ℕ × List UInt8)} (hwf : WellFormed exts) (hwf' : WellFormed exts')
    (h : encoding exts = encoding exts') : exts = exts' := by
  have hne (x : ℕ × List UInt8) (exts : List (ℕ × List UInt8)) : encoding (x :: exts) ≠ [] := by
    rw [encoding_cons, ← List.length_pos_iff, List.length_append, length_bigBytes]
    omega
  induction exts generalizing exts' with
  | nil =>
    cases exts' with
    | nil => rfl
    | cons x' exts' => exact absurd h.symm (hne x' exts')
  | cons x exts ih =>
    cases exts' with
    | nil => exact absurd h (hne x exts)
    | cons x' exts' =>
      obtain ⟨⟨hkind, hlen⟩, hwf⟩ := List.forall_mem_cons.mp hwf
      obtain ⟨⟨hkind', hlen'⟩, hwf'⟩ := List.forall_mem_cons.mp hwf'
      rw [encoding_cons, encoding_cons] at h
      have hint := int_bigBytes hkind (prefixed 2 x.2 ++ encoding exts)
      rw [h, int_bigBytes hkind'] at hint
      obtain ⟨hfst, hrest⟩ := Prod.mk.inj (Except.ok.inj hint)
      have hvec := vec_prefixed hlen (encoding exts)
      rw [← hrest, vec_prefixed hlen'] at hvec
      obtain ⟨hsnd, henc⟩ := Prod.mk.inj (Except.ok.inj hvec)
      rw [Prod.ext hfst hsnd, ih hwf hwf' henc.symm]

end Extensions

/-! ### Blocks -/

/-- The input is a block of well-formed extensions with `rest` behind it. -/
structure IsBlock (input : List UInt8) (exts : List (ℕ × List UInt8)) (rest : List UInt8) : Prop where
  wellFormed : WellFormed exts
  length : (encoding exts).length < 256 ^ 2
  eq : input = prefixed 2 (encoding exts) ++ rest

theorem IsBlock.unique {exts exts' : List (ℕ × List UInt8)} (h : IsBlock input exts rest)
    (h' : IsBlock input exts' rest') : exts = exts' ∧ rest = rest' := by
  have hvec := vec_prefixed h.length rest
  rw [← h.eq, h'.eq, vec_prefixed h'.length] at hvec
  obtain ⟨henc, hrest⟩ := Prod.mk.inj (Except.ok.inj hvec)
  exact ⟨encoding_inj h.wellFormed h'.wellFormed henc.symm, hrest.symm⟩

section Repeats

variable {σ : Type} (each : σ → ℕ → List UInt8 → Except TlsError σ) (acc : σ) (input : List UInt8)

/-- Succeeds exactly on blocks of well-formed extensions of distinct types that the callback takes in. -/
def RefusesRepeats : Prop :=
  ∀ acc' rest, Reading.extensions each acc input = .ok (acc', rest) ↔
    ∃ exts, IsBlock input exts rest ∧ (exts.map Prod.fst).Nodup ∧ Accepts each acc exts acc'

/-- In a block that the callback takes in, without two equal types below 64, no type from 64 on
stands twice. -/
def HighDistinct : Prop :=
  ∀ exts rest acc', IsBlock input exts rest → LowDistinct exts → Accepts each acc exts acc' →
    ((exts.map Prod.fst).filter (64 ≤ ·)).Nodup

variable {each acc input} {acc' : σ}

theorem fresh_zero {exts : List (ℕ × List UInt8)} : Fresh 0 exts ↔ LowDistinct exts := by
  simp [Fresh]

/-- Exactly what is read: the types below 64 are distinct. -/
theorem extensions_eq_ok_iff : Reading.extensions each acc input = .ok (acc', rest) ↔
    ∃ exts, IsBlock input exts rest ∧ LowDistinct exts ∧ Accepts each acc exts acc' := by
  constructor
  · intro h
    obtain ⟨block, r, hblock, h⟩ := bind_eq_ok h
    obtain ⟨hinput, hlen⟩ := vec_eq_ok hblock
    obtain ⟨acc₁, hacc, h⟩ := Lists.bind_eq_ok h
    obtain ⟨rfl, rfl⟩ := pure_eq_ok h
    obtain ⟨exts, hwf, rfl, hfresh, haccepts⟩ := (extensionsFrom_eq_ok_iff le_rfl).mp hacc
    exact ⟨exts, ⟨hwf, hlen, hinput⟩, fresh_zero.mp hfresh, haccepts⟩
  · rintro ⟨exts, ⟨hwf, hlen, rfl⟩, hlow, haccepts⟩
    have hread := (extensionsFrom_eq_ok_iff le_rfl).mpr ⟨exts, hwf, rfl, fresh_zero.mpr hlow, haccepts⟩
    change (vec 2 _ >>= fun p => (liftM (extensionsFrom each p.1.length 0 acc p.1) : Reading σ) p.2) = _
    rw [vec_prefixed hlen]
    change (extensionsFrom each (encoding exts).length 0 acc (encoding exts) >>= fun a => .ok (a, rest)) = _
    rw [hread]
    rfl

theorem nodup_iff {exts : List (ℕ × List UInt8)} : (exts.map Prod.fst).Nodup ↔
    LowDistinct exts ∧ ((exts.map Prod.fst).filter (64 ≤ ·)).Nodup := by
  constructor
  · exact fun h => ⟨h.filter _, h.filter _⟩
  · rintro ⟨hlow, hhigh⟩
    have hperm := List.filter_append_perm (fun k => decide (k < 64)) (exts.map Prod.fst)
    have hnot : (fun k => !decide (k < 64)) = fun k => decide (64 ≤ k) := by
      funext k
      rw [← decide_not, decide_eq_decide.mpr Nat.not_lt]
    rw [hnot] at hperm
    refine hperm.nodup_iff.mp (List.nodup_append.mpr ⟨hlow, hhigh, ?_⟩)
    intro a ha b hb
    have hlt : a < 64 := by simpa using (List.mem_filter.mp ha).2
    have hge : 64 ≤ b := by simpa using (List.mem_filter.mp hb).2
    omega

theorem refusesRepeats_iff : RefusesRepeats each acc input ↔ HighDistinct each acc input := by
  constructor
  · intro h exts rest acc' hblock hlow haccepts
    obtain ⟨exts', hblock', hnodup, -⟩ := (h acc' rest).mp (extensions_eq_ok_iff.mpr ⟨exts, hblock, hlow, haccepts⟩)
    obtain ⟨rfl, -⟩ := hblock.unique hblock'
    exact (nodup_iff.mp hnodup).2
  · intro h acc' rest
    rw [extensions_eq_ok_iff]
    refine exists_congr fun exts => and_congr_right fun hblock => ?_
    constructor
    · rintro ⟨hlow, haccepts⟩
      exact ⟨nodup_iff.mpr ⟨hlow, h exts rest acc' hblock hlow haccepts⟩, haccepts⟩
    · rintro ⟨hnodup, haccepts⟩
      exact ⟨(nodup_iff.mp hnodup).1, haccepts⟩

/-- An `EncryptedExtensions` with two empty extensions of type 64. -/
theorem repeated_64 : ¬RefusesRepeats encryptedExtension () [0, 8, 0, 64, 0, 0, 0, 64, 0, 0] := by
  intro h
  have hblock : IsBlock [0, 8, 0, 64, 0, 0, 0, 64, 0, 0] [(64, []), (64, [])] [] :=
    ⟨by simp [WellFormed], by decide, by decide⟩
  have haccepts : Accepts encryptedExtension () [(64, []), (64, [])] () := rfl
  have hread := extensions_eq_ok_iff.mpr ⟨_, hblock, List.nodup_nil, haccepts⟩
  obtain ⟨exts, hblock', hnodup, -⟩ := (h () []).mp hread
  obtain ⟨rfl, -⟩ := hblock.unique hblock'
  exact absurd hnodup (by decide)

end Repeats

end Reading

end Chatlink.Net
