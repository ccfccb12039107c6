import Chatlink.Agent.Preprocess
import Chatlink.Text.Spans

/-!
# What stage 0 reads off a line

The name of a list line stands in the line as the client wrote it, not cut out of a
longer word, and its quantity is a whole number of the line. The same holds of the
canonical global quantity, and every code of the remaining text is a token of a line.
-/
namespace Chatlink.Agent

open Regex Texto

variable {U : Unicode}

/-! ## Patterns without digits -/

/-- A character that is no decimal digit. -/
def NoCifra (U : Unicode) (c : Char) : Prop := U.decimal c = none

theorem noCifra_ascii {c : Char} (h : c.toNat < 128) (hd : c.toNat < 48 ∨ 57 < c.toNat) :
    NoCifra U c := by
  rw [NoCifra, U.decimal_ascii c h, if_neg (by omega)]

theorem only_ch {c : Char} (h : c.toNat < 128) (hd : c.toNat < 48 ∨ 57 < c.toNat) :
    (U.ch c).Only (NoCifra U) := by
  intro x hx
  exact U.decimal_sameCase c x hx (noCifra_ascii h hd)

theorem only_lit {s : String}
    (h : s.toList.all fun c => c.toNat < 128 ∧ (c.toNat < 48 ∨ 57 < c.toNat)) :
    (U.lit s).Only (NoCifra U) := by
  apply Re.only_all
  intro a ha
  obtain ⟨c, hc, rfl⟩ := List.mem_map.mp ha
  have hascii := of_decide_eq_true (List.all_eq_true.mp h c hc)
  exact only_ch hascii.1 hascii.2

theorem only_espacios : espacios.Only (NoCifra U) := fun x hx => U.decimal_space x hx

theorem only_espacios1 : espacios1.Only (NoCifra U) := Re.only_plus fun x hx => U.decimal_space x hx

theorem only_unidad : (unidad U).Only (NoCifra U) := by
  apply Re.only_any
  intro a ha
  simp only [List.mem_cons, List.not_mem_nil, or_false] at ha
  rcases ha with rfl | rfl | rfl | rfl
  · exact ⟨only_lit (by decide), Re.only_opt (only_ch (by decide) (by decide))⟩
  · exact ⟨only_lit (by decide), Re.only_opt (only_ch (by decide) (by decide))⟩
  · exact only_lit (by decide)
  · exact only_ch (by decide) (by decide)

/-! ## A run of digits -/

/-- The cursor passes a run of digits and captures it as group `i`. -/
def Cifras (U : Unicode) (i : ℕ) (q : Texto) (c d : Cursor) : Prop :=
  Passes c q d ∧ q ≠ [] ∧ (∀ x ∈ q, U.isDecimal x) ∧ d.caps = (i, q) :: c.caps

theorem mem_cifras {i n : ℕ} {c d : Cursor} (h : d ∈ (cifras U i n).run c) :
    ∃ q, Cifras U i q c d := by
  obtain ⟨e, he, rfl⟩ := Re.mem_group h
  obtain ⟨f, hf, he⟩ := Re.mem_seq he
  obtain ⟨g, hg, hf⟩ := Re.mem_seq hf
  obtain ⟨x, hx, hpass, hcaps⟩ := Re.mem_chr hg
  obtain rfl : f = g := List.mem_singleton.mp hf
  have honly : (Re.chr U.isDecimal).Only (fun c => U.isDecimal c) := fun _ h => h
  obtain ⟨w, hw, pw, cw⟩ := Re.across_of_only he (Re.only_upTo honly (n - 1))
  have htot := hpass.trans hw
  refine ⟨[x] ++ w, ⟨htot.1, htot.2⟩, by simp, ?_, ?_⟩
  · intro y hy
    rcases List.mem_append.mp hy with hy | hy
    · rw [List.mem_singleton.mp hy]
      exact hx
    · exact pw y hy
  · simp only [Cursor.capture, htot.between, cw, hcaps]

/-- The cursor passes a text with exactly one run of digits `q`, captured as group `i`. -/
def UnaCifra (U : Unicode) (i : ℕ) (a q b : Texto) (c d : Cursor) : Prop :=
  Passes c (a ++ q ++ b) d ∧ q ≠ [] ∧ (∀ x ∈ q, U.isDecimal x) ∧ (∀ x ∈ a, NoCifra U x) ∧
    (∀ x ∈ b, NoCifra U x) ∧ d.caps = (i, q) :: c.caps

theorem Cifras.una {i : ℕ} {q : Texto} {c c' d' d : Cursor} (h : Cifras U i q c' d')
    (ha : Across (NoCifra U) c c') (hb : Across (NoCifra U) d' d) :
    ∃ a b, UnaCifra U i a q b c d := by
  obtain ⟨hq, hne, hdec, hcaps⟩ := h
  obtain ⟨a, ha, pa, ca⟩ := ha
  obtain ⟨b, hb, pb, cb⟩ := hb
  exact ⟨a, b, (ha.trans hq).trans hb, hne, hdec, pa, pb, by rw [cb, hcaps, ca]⟩

/-! ## The quantity at the end of a line -/

/-- What may stand between a name and its quantity. -/
def trasNombre (c : Char) : Bool := isSpace c || c ∈ [',', ';']

theorem noCifra_trasNombre {x : Char} (h : trasNombre x) : NoCifra U x := by
  rcases Bool.or_eq_true_iff.mp h with h | h
  · exact U.decimal_space x h
  · simp only [List.mem_cons, List.not_mem_nil, or_false, decide_eq_true_eq] at h
    rcases h with rfl | rfl
    · exact noCifra_ascii (by decide) (by decide)
    · exact noCifra_ascii (by decide) (by decide)

/-- A quantity, with the character that ends the name before it. -/
theorem una_of_first {i : ℕ} {x : Char} {q : Texto} {c c' c'' d' d : Cursor} (hx : trasNombre x)
    (hpass : Passes c [x] c') (hcaps : c'.caps = c.caps) (ha : Across (NoCifra U) c' c'')
    (hq : Cifras U i q c'' d') (hb : Across (NoCifra U) d' d) :
    ∃ a b, UnaCifra U i (x :: a) q b c d := by
  obtain ⟨hq, hne, hdec, hqc⟩ := hq
  obtain ⟨a, ha, pa, ca⟩ := ha
  obtain ⟨b, hb, pb, cb⟩ := hb
  refine ⟨a, b, ((hpass.trans ha).trans hq).trans hb, hne, hdec, ?_, pb, by rw [cb, hqc, ca, hcaps]⟩
  intro y hy
  rcases List.mem_cons.mp hy with rfl | hy
  · exact noCifra_trasNombre hx
  · exact pa y hy

theorem mem_colaQty {c d : Cursor} (h : d ∈ (colaQty U).run c) :
    ∃ x a q b, ∃ i ∈ [2, 3, 4, 5], trasNombre x ∧ UnaCifra U i (x :: a) q b c d := by
  have hpunto : (Re.opt (U.ch '.')).Only (NoCifra U) :=
    Re.only_opt (only_ch (by decide) (by decide))
  have hx : (U.ch 'x').Only (NoCifra U) := only_ch (by decide) (by decide)
  have hespacio {x : Char} (h : isSpace x) : trasNombre x := by simp [trasNombre, h]
  rcases Re.mem_alt h with h | h
  · -- ", 10 uds."
    obtain ⟨c1, h1, h⟩ := Re.mem_seq h
    obtain ⟨c2, h2, h⟩ := Re.mem_seq h
    obtain ⟨c3, h3, h⟩ := Re.mem_seq h
    obtain ⟨x, hx, hpass, hcaps⟩ := Re.mem_chr h1
    obtain ⟨q, hq⟩ := mem_cifras h3
    have hsep : trasNombre x := by
      simp [trasNombre] at hx ⊢
      exact Or.inr hx
    have htail := Re.across_of_only (p := NoCifra U) h
      ⟨only_espacios, Re.only_opt only_unidad, hpunto⟩
    obtain ⟨a, b, hu⟩ := una_of_first hsep hpass hcaps (Re.across_of_only h2 only_espacios) hq htail
    exact ⟨x, a, q, b, 2, by simp, hsep, hu⟩
  rcases Re.mem_alt h with h | h
  · -- " x10 uds."
    obtain ⟨c1, h1, h⟩ := Re.mem_seq h
    obtain ⟨c2, h2, h⟩ := Re.mem_seq h
    obtain ⟨c3, h3, h⟩ := Re.mem_seq h
    obtain ⟨c4, h4, h⟩ := Re.mem_seq h
    obtain ⟨c0, h0, h1⟩ := Re.mem_seq h1
    obtain ⟨x, hsp, hpass, hcaps⟩ := Re.mem_chr h0
    obtain ⟨q, hq⟩ := mem_cifras h4
    have hmid := ((Re.across_of_only h1 only_espacios).trans
      (Re.across_of_only h2 (Re.only_opt hx))).trans (Re.across_of_only h3 only_espacios)
    have htail := Re.across_of_only (p := NoCifra U) h ⟨only_espacios, only_unidad, hpunto⟩
    obtain ⟨a, b, hu⟩ := una_of_first (hespacio hsp) hpass hcaps hmid hq htail
    exact ⟨x, a, q, b, 3, by simp, hespacio hsp, hu⟩
  rcases Re.mem_alt h with h | h
  · -- " x10"
    obtain ⟨c1, h1, h⟩ := Re.mem_seq h
    obtain ⟨c2, h2, h⟩ := Re.mem_seq h
    obtain ⟨c3, h3, h⟩ := Re.mem_seq h
    obtain ⟨c0, h0, h1⟩ := Re.mem_seq h1
    obtain ⟨x, hsp, hpass, hcaps⟩ := Re.mem_chr h0
    obtain ⟨q, hq⟩ := mem_cifras h
    have hmid := ((Re.across_of_only h1 only_espacios).trans
      (Re.across_of_only h2 hx)).trans (Re.across_of_only h3 only_espacios)
    obtain ⟨a, b, hu⟩ := una_of_first (hespacio hsp) hpass hcaps hmid hq (Across.refl _ d)
    exact ⟨x, a, q, b, 4, by simp, hespacio hsp, hu⟩
  · -- " 6"
    obtain ⟨c1, h1, h⟩ := Re.mem_seq h
    obtain ⟨c0, h0, h1⟩ := Re.mem_seq h1
    obtain ⟨x, hsp, hpass, hcaps⟩ := Re.mem_chr h0
    obtain ⟨q, hq⟩ := mem_cifras h
    obtain ⟨a, b, hu⟩ := una_of_first (hespacio hsp) hpass hcaps
      (Re.across_of_only h1 only_espacios) hq (Across.refl _ d)
    exact ⟨x, a, q, b, 5, by simp, hespacio hsp, hu⟩

theorem mem_run_of_matchStart {r : Re} {s : Texto} {d : Cursor} (h : r.matchStart s = some d) :
    d ∈ r.run ⟨[], s, []⟩ := List.mem_of_mem_head? h

/-- A line with a quantity: name, end of the name, one run of digits. -/
theorem trailQty_spec {body : Texto} {d : Cursor} (h : (reTrailQty U).matchStart body = some d) :
    ∃ name x a q b, body = name ++ (x :: a) ++ q ++ b ∧ trasNombre x ∧ q ≠ [] ∧
      (∀ y ∈ q, U.isDecimal y) ∧ (∀ y ∈ x :: a, NoCifra U y) ∧ (∀ y ∈ b, NoCifra U y) ∧
      d.get 1 = some name ∧
      ([2, 3, 4, 5].findSome? fun i => (d.get i).filter fun g => !g.isEmpty) = some q := by
  obtain ⟨c1, h1, hr1⟩ := Re.mem_seq (mem_run_of_matchStart h)
  obtain ⟨c2, h2, hr2⟩ := Re.mem_seq hr1
  obtain ⟨c3, h3, hr3⟩ := Re.mem_seq hr2
  obtain ⟨c4, h4, heos⟩ := Re.mem_seq hr3
  obtain ⟨-, rfl⟩ := Re.eq_of_mem_assert h1
  obtain ⟨e, he, rfl⟩ := Re.mem_group h2
  have hdot : (Re.chr (· ≠ '\n')).Only (fun _ => True) := fun _ _ => trivial
  obtain ⟨name, hname, -, hcaps⟩ := Re.across_of_only he (Re.only_lazyPlus hdot)
  obtain ⟨x, a, q, b, i, hi, hx, hu, hne, hdec, hna, hnb, hqc⟩ := mem_colaQty h3
  obtain ⟨w, hw, pw, cw⟩ := Re.across_of_only h4 (only_espacios (U := U))
  obtain ⟨rfl, hend⟩ := Re.mem_eos heos
  have hnl : ∀ y ∈ d.rest, NoCifra U y := by
    intro y hy
    rcases hend with hend | hend
    · simp [hend] at hy
    · have : y = '\n' := by simpa [hend] using hy
      subst this
      exact noCifra_ascii (by decide) (by decide)
  have hget : d.caps = [(i, q), (1, name)] := by
    rw [cw, hqc]
    simp only [Cursor.capture, hname.between, hcaps]
  refine ⟨name, x, a, q, b ++ w ++ d.rest, ?_, hx, hne, hdec, hna, ?_, ?_, ?_⟩
  · have h1 : body = name ++ e.rest := hname.2
    have h2 : e.rest = (x :: a) ++ q ++ b ++ c3.rest := hu.2
    rw [h1, h2, hw.2]
    simp
  · intro y hy
    simp only [List.mem_append] at hy
    rcases hy with (hy | hy) | hy
    · exact hnb y hy
    · exact pw y hy
    · exact hnl y hy
  · simp only [List.mem_cons, List.not_mem_nil, or_false] at hi
    rcases hi with rfl | rfl | rfl | rfl <;> simp [Cursor.get, hget, List.lookup]
  · simp only [List.mem_cons, List.not_mem_nil, or_false] at hi
    rcases hi with rfl | rfl | rfl | rfl <;>
      simp [Cursor.get, hget, List.lookup, List.findSome?, Option.filter, hne]

/-! ## Name and quantity of a line -/

section Linea

variable {p : Char → Bool}

theorem acotado_strip (hp : ∀ c, isSpace c → p c) (s : Texto) : Acotado p (strip s) s :=
  (acotado_stripBy isSpace s).mono hp

/-- The bullet and the spaces around it are all that goes before the body of a line. -/
theorem acotado_sinVineta (hp : ∀ c, isSpace c → p c) (hv : ∀ c, vineta c → p c) (line : Texto) :
    Acotado p (sinVineta line) line := by
  unfold sinVineta
  split
  · next d hd =>
    have honly : reBullet.Only (fun c => p c) :=
      ⟨trivial, fun x hx => hp x hx, fun x hx => hv x hx, fun x hx => hp x hx⟩
    obtain ⟨w, hw, pw, -⟩ := Re.across_of_only (mem_run_of_matchStart hd) honly
    refine ⟨w, [], by simpa using hw.2, ?_, by simp⟩
    intro c hc
    exact pw c (List.mem_of_getLast? hc)
  · exact Acotado.refl p line

/-- A quantity that a line gives is a number of the line. -/
theorem mem_numerosEn_of_acotado {q s : Texto} (h : Acotado (fun c => !U.isDecimal c) q s)
    (hne : q ≠ []) (hq : ∀ c ∈ q, U.isDecimal c) : (U.numberOf q : ℤ) ∈ numerosEn U s := by
  apply List.mem_append_left
  apply List.mem_map.mpr
  refine ⟨q, ?_, rfl⟩
  have hruns : runs U.isDecimal (U.lower s) = runs U.isDecimal s := U.runs_lower s
  rw [hruns]
  exact mem_runs h hne hq

theorem noCifra_iff {c : Char} : NoCifra U c ↔ (!U.isDecimal c) = true := by
  simp [NoCifra, Unicode.isDecimal]

theorem parseLineaPedido_qty {line : Texto} {v : ℤ} (h : (parseLineaPedido U line).2 = some v) :
    v ∈ numerosEn U line := by
  unfold parseLineaPedido at h
  dsimp only at h
  split at h
  · next d hd =>
    obtain ⟨name, x, a, q, b, hbody, -, hne, hdec, ha, hb, -, hq⟩ := trailQty_spec hd
    rw [hq] at h
    obtain rfl := Option.some.inj h
    have hspace (c : Char) (hc : isSpace c) : (!U.isDecimal c) = true :=
      noCifra_iff.mp (U.decimal_space c hc)
    have hvin (c : Char) (hc : vineta c) : (!U.isDecimal c) = true := by
      apply noCifra_iff.mp
      simp only [vineta, List.mem_cons, List.not_mem_nil, or_false, decide_eq_true_eq] at hc
      rcases hc with rfl | rfl | rfl
      · exact noCifra_ascii (by decide) (by decide)
      · exact U.decimal_punctuation _ (by decide) (by decide)
      · exact noCifra_ascii (by decide) (by decide)
    have hin : Acotado (fun c => !U.isDecimal c) q (strip (sinVineta line)) := by
      refine ⟨name ++ (x :: a), b, by rw [hbody], ?_, ?_⟩
      · intro c hc
        rw [List.getLast?_append_cons] at hc
        exact noCifra_iff.mp (ha c (List.mem_of_getLast? hc))
      · intro c hc
        exact noCifra_iff.mp (hb c (List.mem_of_mem_head? hc))
    exact mem_numerosEn_of_acotado
      ((hin.trans (acotado_strip hspace _)).trans (acotado_sinVineta hspace hvin line)) hne hdec
  · simp at h

/-- Not an ASCII letter or digit: what may stand beside a code. -/
def noAlfanum (c : Char) : Bool := !alfanum c

theorem noAlfanum_of_toNat {c : Char} (h : c.toNat < 48 ∨ (57 < c.toNat ∧ c.toNat < 65) ∨
    (90 < c.toNat ∧ c.toNat < 97) ∨ 122 < c.toNat) : noAlfanum c := by
  have hA : ('A' ≤ c) = (65 ≤ c.toNat) := rfl
  have hZ : (c ≤ 'Z') = (c.toNat ≤ 90) := rfl
  have ha : ('a' ≤ c) = (97 ≤ c.toNat) := rfl
  have hz : (c ≤ 'z') = (c.toNat ≤ 122) := rfl
  have h0 : ('0' ≤ c) = (48 ≤ c.toNat) := rfl
  have h9 : (c ≤ '9') = (c.toNat ≤ 57) := rfl
  simp only [noAlfanum, alfanum, hA, hZ, ha, hz, h0, h9, Bool.not_eq_true', Bool.or_eq_false_iff,
    Bool.and_eq_false_iff, decide_eq_false_iff_not]
  omega

theorem noAlfanum_space (c : Char) (h : isSpace c) : noAlfanum c := by
  apply noAlfanum_of_toNat
  simp only [isSpace, Bool.or_eq_true, Bool.and_eq_true, decide_eq_true_eq, beq_iff_eq] at h
  omega

theorem noAlfanum_of_mem {cs : List Char} {c : Char} (h : c ∈ cs) (hcs : cs.all noAlfanum) :
    noAlfanum c := List.all_eq_true.mp hcs c h

/-- The name of a line stands in it as written, between characters that are no part of a
word. -/
theorem acotado_nombre (line : Texto) :
    Acotado noAlfanum (parseLineaPedido U line).1 line := by
  have hvin (c : Char) (hc : vineta c) : noAlfanum c :=
    noAlfanum_of_mem (of_decide_eq_true hc) (by decide)
  have hborde (s : Texto) : Acotado noAlfanum (stripChars bordeNombre s) s := by
    apply (acotado_stripBy (List.contains bordeNombre) s).mono
    intro c hc
    exact noAlfanum_of_mem (List.contains_iff_mem.mp hc) (by decide)
  have hbody : Acotado noAlfanum (strip (sinVineta line)) line :=
    (acotado_strip noAlfanum_space _).trans (acotado_sinVineta noAlfanum_space hvin line)
  unfold parseLineaPedido
  dsimp only
  split
  · next d hd =>
    obtain ⟨name, x, a, q, b, hbq, hx, -, -, -, -, hname, -⟩ := trailQty_spec hd
    have hgroup : Acotado noAlfanum name (strip (sinVineta line)) := by
      refine ⟨[], (x :: a) ++ q ++ b, by rw [hbq]; simp, by simp, ?_⟩
      intro c hc
      obtain rfl : x = c := by simpa using hc
      rcases Bool.or_eq_true_iff.mp hx with hx | hx
      · exact noAlfanum_space x hx
      · exact noAlfanum_of_mem (of_decide_eq_true hx) (by decide)
    rw [hname]
    exact ((hborde name).trans hgroup).trans hbody
  · exact (hborde _).trans hbody

end Linea

/-! ## The canonical global quantity -/

theorem only_oa : (Re.alt (U.ch 'o') (U.ch 'a')).Only (NoCifra U) :=
  ⟨only_ch (by decide) (by decide), only_ch (by decide) (by decide)⟩

theorem only_s : (U.ch 's').Only (NoCifra U) := only_ch (by decide) (by decide)

/-- The four wordings of a global quantity hold one number each. -/
theorem mem_globalQty {ln : Texto} {d : Cursor} (h : (reGlobalQty U).matchStart ln = some d) :
    ∃ a q b, ∃ i ∈ [1, 2, 3, 4], UnaCifra U i a q b ⟨[], ln, []⟩ d ∧
      (d.rest = [] ∨ d.rest = ['\n']) := by
  have hpunto : (Re.opt (U.ch '.')).Only (NoCifra U) :=
    Re.only_opt (only_ch (by decide) (by decide))
  obtain ⟨c1, h1, hr⟩ := Re.mem_seq (mem_run_of_matchStart h)
  obtain ⟨-, rfl⟩ := Re.eq_of_mem_assert h1
  obtain ⟨c2, h2, hr⟩ := Re.mem_seq hr
  obtain ⟨c3, h3, hr⟩ := Re.mem_seq hr
  obtain ⟨c4, h4, hr⟩ := Re.mem_seq hr
  obtain ⟨c5, h5, hr⟩ := Re.mem_seq hr
  obtain ⟨c6, h6, heos⟩ := Re.mem_seq hr
  obtain ⟨rfl, hend⟩ := Re.mem_eos heos
  have hpre := Re.across_of_only h2 (only_espacios (U := U))
  have hpost := ((Re.across_of_only h4 (only_espacios (U := U))).trans
    (Re.across_of_only h5 hpunto)).trans (Re.across_of_only h6 only_espacios)
  -- before and after the number of each wording there is no other digit
  have hmain : ∃ q, ∃ i ∈ [1, 2, 3, 4], ∃ e f, Across (NoCifra U) c2 e ∧ Cifras U i q e f ∧
      Across (NoCifra U) f c3 := by
    rcases Re.mem_alt h3 with h | h
    · obtain ⟨e1, he, h⟩ := Re.mem_seq h
      obtain ⟨q, hq⟩ := mem_cifras he
      have hunit : (Re.opt (.alt (.all [U.lit "ud", .opt (U.ch 's'), .opt (U.ch '.')])
          (.all [U.lit "unidade", .opt (U.ch 's')]))).Only (NoCifra U) :=
        Re.only_opt ⟨⟨only_lit (by decide), Re.only_opt only_s, hpunto⟩,
          only_lit (by decide), Re.only_opt only_s⟩
      have htail := Re.across_of_only (p := NoCifra U) h
        ⟨only_espacios, hunit, only_espacios, only_lit (by decide), only_espacios1,
          only_lit (by decide), Re.only_opt
            ⟨only_espacios1, only_lit (by decide), only_oa, Re.only_opt only_s⟩⟩
      exact ⟨q, 1, by simp, c2, e1, Across.refl _ c2, hq, htail⟩
    rcases Re.mem_alt h with h | h
    · obtain ⟨e1, g1, h⟩ := Re.mem_seq h
      obtain ⟨e2, g2, h⟩ := Re.mem_seq h
      obtain ⟨e3, g3, h⟩ := Re.mem_seq h
      obtain ⟨e4, g4, h⟩ := Re.mem_seq h
      obtain ⟨e5, g5, h⟩ := Re.mem_seq h
      obtain ⟨e6, g6, h⟩ := Re.mem_seq h
      obtain ⟨e7, g7, h⟩ := Re.mem_seq h
      obtain ⟨q, hq⟩ := mem_cifras h
      have hlead := ((((((Re.across_of_only (p := NoCifra U) g1 (only_lit (by decide))).trans
        (Re.across_of_only g2 only_espacios1)).trans
        (Re.across_of_only g3 (only_lit (by decide)))).trans
        (Re.across_of_only g4 only_espacios1)).trans
        (Re.across_of_only g5 (only_lit (by decide)))).trans
        (Re.across_of_only g6 (Re.only_opt only_oa))).trans
        (Re.across_of_only g7 only_espacios1)
      exact ⟨q, 2, by simp, e7, c3, hlead, hq, Across.refl _ c3⟩
    rcases Re.mem_alt h with h | h
    · obtain ⟨e1, g1, h⟩ := Re.mem_seq h
      obtain ⟨e2, g2, h⟩ := Re.mem_seq h
      obtain ⟨e3, g3, h⟩ := Re.mem_seq h
      obtain ⟨e4, g4, h⟩ := Re.mem_seq h
      obtain ⟨e5, g5, h⟩ := Re.mem_seq h
      obtain ⟨e6, g6, h⟩ := Re.mem_seq h
      obtain ⟨q, hq⟩ := mem_cifras h
      have hlead := (((((Re.across_of_only (p := NoCifra U) g1 (only_lit (by decide))).trans
        (Re.across_of_only g2 only_oa)).trans
        (Re.across_of_only g3 only_s)).trans
        (Re.across_of_only g4 only_espacios1)).trans
        (Re.across_of_only g5 (only_ch (by decide) (by decide)))).trans
        (Re.across_of_only g6 only_espacios1)
      exact ⟨q, 3, by simp, e6, c3, hlead, hq, Across.refl _ c3⟩
    · obtain ⟨e1, he, h⟩ := Re.mem_seq h
      obtain ⟨q, hq⟩ := mem_cifras he
      have htail := Re.across_of_only (p := NoCifra U) h
        ⟨only_espacios1, only_lit (by decide), only_espacios1, only_lit (by decide), only_oa,
          only_s⟩
      exact ⟨q, 4, by simp, c2, e1, Across.refl _ c2, hq, htail⟩
  obtain ⟨q, i, hi, e, f, ha, hq, hb⟩ := hmain
  obtain ⟨a, b, hu⟩ := hq.una (hpre.trans ha) (hb.trans hpost)
  exact ⟨a, q, b, i, hi, hu, hend⟩

/-- The canonical global quantity is a number of its line. -/
theorem globalQty_mem {ln : Texto} {v : ℤ} (h : globalQty U ln = some v) : v ∈ numerosEn U ln := by
  obtain ⟨d, hd, h⟩ := Option.bind_eq_some_iff.mp h
  obtain ⟨a, q, b, i, hi, ⟨hpass, hne, hdec, hna, hnb, hcaps⟩, hend⟩ := mem_globalQty hd
  have hfind : ([1, 2, 3, 4].findSome? fun i => (d.get i).filter fun g => !g.isEmpty) = some q := by
    simp only [List.mem_cons, List.not_mem_nil, or_false] at hi
    rcases hi with rfl | rfl | rfl | rfl <;>
      simp [Cursor.get, hcaps, List.lookup, List.findSome?, Option.filter, hne]
  rw [hfind] at h
  obtain rfl := Option.some.inj h
  refine mem_numerosEn_of_acotado ⟨a, b ++ d.rest, ?_, ?_, ?_⟩ hne hdec
  · simpa using hpass.2
  · intro c hc
    exact noCifra_iff.mp (hna c (List.mem_of_getLast? hc))
  · intro c hc
    have hmem := List.mem_of_mem_head? hc
    rcases List.mem_append.mp hmem with hm | hm
    · exact noCifra_iff.mp (hnb c hm)
    · rcases hend with hend | hend
      · simp [hend] at hm
      · obtain rfl : c = '\n' := by simpa [hend] using hm
        exact noCifra_iff.mp (noCifra_ascii (by decide) (by decide))

/-! ## Codes -/

theorem noAlfanum_separador (c : Char) (h : separador c) : noAlfanum c := by
  rcases Bool.or_eq_true_iff.mp h with h | h
  · exact noAlfanum_space c h
  · exact noAlfanum_of_mem (of_decide_eq_true h) (by decide)

/-- A code found in a text is one of its tokens. -/
theorem acotado_of_mem_codesInText {c s : Texto} (h : c ∈ codesInText U s) :
    Acotado separador c s :=
  acotado_of_mem_splitOnRuns s false [] (by simp) (List.mem_filter.mp h).1

/-! ## The message -/

variable {mensaje : Texto}

theorem clasifica_cases (U : Unicode) (ln : Texto) :
    (∃ q, globalQty U ln = some q ∧ clasifica U ln = .global q) ∨
      clasifica U ln =
        .pedido (parseLineaPedido U ln).1 (parseLineaPedido U ln).2 (strip ln) ∨
      clasifica U ln = .lenguaje ln := by
  unfold clasifica
  split
  · next q hq => exact Or.inl ⟨q, hq, rfl⟩
  · split
    · dsimp only
      split
      · exact Or.inr (Or.inr rfl)
      · exact Or.inr (Or.inl rfl)
    · exact Or.inr (Or.inr rfl)

theorem mem_pedidos {r : Texto × Option ℤ × Texto} (h : r ∈ (preprocesar U mensaje).pedidos) :
    ∃ ln ∈ lineasLeidas U mensaje,
      r = ((parseLineaPedido U ln).1, (parseLineaPedido U ln).2, strip ln) := by
  obtain ⟨x, hx, hr⟩ := List.mem_filterMap.mp h
  obtain ⟨ln, hln, rfl⟩ := List.mem_map.mp hx
  refine ⟨ln, hln, ?_⟩
  rcases clasifica_cases U ln with ⟨q, -, hc⟩ | hc | hc
  all_goals rw [hc] at hr
  · cases hr
  · exact (Option.some.inj hr).symm
  · cases hr

theorem cantidadGlobal_mem {v : ℤ} (h : (preprocesar U mensaje).cantidadGlobal = some v) :
    ∃ ln ∈ lineasLeidas U mensaje, v ∈ numerosEn U ln := by
  obtain ⟨x, hx, hv⟩ := List.mem_filterMap.mp (List.mem_of_getLast? h)
  obtain ⟨ln, hln, rfl⟩ := List.mem_map.mp hx
  refine ⟨ln, hln, ?_⟩
  rcases clasifica_cases U ln with ⟨q, hq, hc⟩ | hc | hc
  all_goals rw [hc] at hv
  · obtain rfl := Option.some.inj hv
    exact globalQty_mem hq
  · cases hv
  · cases hv

/-- The text left for the extraction is made of lines of the message. -/
theorem texto_eq_join (U : Unicode) (mensaje : Texto) :
    ∃ lines, (∀ l ∈ lines, l ∈ lineasLeidas U mensaje) ∧
      (preprocesar U mensaje).texto = strip (join ['\n'] lines) := by
  refine ⟨_, ?_, rfl⟩
  intro l hl
  obtain ⟨x, hx, hl⟩ := List.mem_filterMap.mp hl
  obtain ⟨ln, hln, rfl⟩ := List.mem_map.mp hx
  rcases clasifica_cases U ln with ⟨q, -, hc⟩ | hc | hc
  all_goals rw [hc] at hl
  · cases hl
  · cases hl
  · obtain rfl := Option.some.inj hl
    exact hln

/-- A code of the text left for the extraction is a token of a line. -/
theorem acotado_of_mem_codes_texto {c : Texto}
    (h : c ∈ codesInText U (preprocesar U mensaje).texto) :
    ∃ ln ∈ lineasLeidas U mensaje, Acotado separador c ln := by
  obtain ⟨lines, hlines, htexto⟩ := texto_eq_join U mensaje
  have htoken := List.mem_filter.mp h
  have hne : c ≠ [] := by
    rintro rfl
    simp at htoken
  have hsep := not_sep_of_mem_splitOnRuns _ false [] (by simp) htoken.1
  have hnl : '\n' ∉ c := by
    intro hmem
    have := hsep _ hmem
    revert this
    decide
  have hin := acotado_of_mem_codesInText h
  rw [htexto] at hin
  have hjoin := hin.trans (acotado_strip (p := separador) (fun c hc => by simp [separador, hc]) _)
  obtain ⟨l, hl, hcl⟩ := acotado_of_join hnl hne lines hjoin
  exact ⟨l, hlines l hl, hcl⟩

end Chatlink.Agent
