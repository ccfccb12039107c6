import Chatlink.Token.Standard

/-!
# Normalization Form C

With the tables of the standard, what `nfc` returns is the composed form of the text: decomposition, order and the pass
are each one step of it, and a text below U+0300 is its own.
-/
namespace Chatlink.Token.Nfc

open Combining

/-- One level of the decomposition in the tables. -/
def Tables.parts (t : Tables) (c : ℕ) : List ℕ :=
  match t.row c with
  | some e => if e.2.2 ≠ 0 then [e.2.1, e.2.2] else [e.2.1]
  | none => []

/-- The tables hold the data of the standard, less what is reckoned for Hangul. -/
structure Tables.Follows (t : Tables) (U : Script ℕ) : Prop where
  classes : ∀ c, lookup t.classes c = U.cc c
  decomposed : ∀ c, ¬Syllable c → t.parts c = U.parts c
  composed : ∀ a b p, (a, b, p) ∈ t.composed ↔ U.Pairs a b p ∧ ¬Syllable p

variable {U : Script ℕ} {t : Tables}

/-! ## Decomposition -/

/-- What `decompose` appends is the character taken apart as far as it goes. -/
theorem decompose_eq (hU : Standard U) (ht : t.Follows U) (c : ℕ) (out : List ℕ) :
    decompose t c out = out ++ U.full c := by
  induction c using U.acyclic.induction generalizing out with
  | h c ih =>
    rw [decompose]
    by_cases hc : Syllable c
    · obtain ⟨l, hl, v, hv, s, hs, hsyllable, hlead, hvowel, htrail⟩ := exists_syllable hc
      rw [if_pos hc]
      simp only [hlead, hvowel, htrail]
      by_cases hpos : s = 0
      · subst hpos
        rw [hsyllable, hU.full_open hl hv]
        simp
      · rw [hsyllable, hU.full_closed hl hv hs (by omega), if_pos hpos]
        simp
    · have hparts := ht.decomposed c hc
      rw [if_neg hc]
      rw [Tables.parts] at hparts
      split
      next e hrow =>
        rw [hrow] at hparts
        dsimp only at hparts ⊢
        by_cases hsecond : e.2.2 ≠ 0
        · rw [if_pos hsecond] at hparts ⊢
          rw [ih e.2.1 (by rw [← hparts]; simp), ih e.2.2 (by rw [← hparts]; simp), Script.full_eq c, ← hparts]
          simp
        · rw [if_neg hsecond] at hparts ⊢
          rw [ih e.2.1 (by rw [← hparts]; simp), Script.full_eq c, ← hparts]
          simp
      next hrow =>
        rw [hrow] at hparts
        rw [Script.full_of_whole hparts.symm]

theorem decomposed_text (hU : Standard U) (ht : t.Follows U) (text : List Char) (d : List ℕ) :
    text.foldl (fun d c => decompose t c.toNat d) d = d ++ (text.map Char.toNat).flatMap U.full := by
  induction text generalizing d with
  | nil => simp
  | cons c text ih =>
    rw [List.foldl_cons, ih, decompose_eq hU ht, List.map_cons, List.flatMap_cons, List.append_assoc]

/-! ## Order -/

/-- The sorted runs are the canonical order. -/
theorem order_eq (l : List (ℕ × ℕ)) : order l = settled (fun e => e.2) l := by
  induction l using order.induct with
  | case1 => rw [order, settled_nil]
  | case2 e rest he ih => rw [order, if_pos he, ih, settled_starter he]
  | case3 e rest he ih =>
    have hmarks : ∀ f ∈ e :: rest.takeWhile (fun f => f.2 ≠ 0), f.2 ≠ 0 := by
      intro f hf
      obtain rfl | hf := List.mem_cons.mp hf
      · exact he
      · simpa using List.mem_takeWhile_imp hf
    have hopens : Opens (fun e : ℕ × ℕ => e.2) (rest.dropWhile fun f => f.2 ≠ 0) := by
      intro f hf
      have hnot := List.head?_dropWhile_not (fun f : ℕ × ℕ => f.2 ≠ 0) rest
      rw [Option.mem_def.mp hf] at hnot
      simpa using hnot
    have hrun := settled_run hmarks hopens
    rw [List.cons_append, List.takeWhile_append_dropWhile] at hrun
    rw [order, if_neg he, ih, hrun]

/-! ## Composition -/

/-- `compose` gives the primary character made of the two. -/
theorem compose_eq_some (hU : Standard U) (ht : t.Follows U) {a b p : ℕ} : compose t a b = some p ↔ U.Pairs a b p := by
  have hone {p₀ : ℕ} (hp₀ : U.Pairs a b p₀) : some p₀ = some p ↔ U.Pairs a b p := by
    constructor
    · intro h
      cases h
      exact hp₀
    · intro hp
      rw [hU.eq_of_pairs hp₀ hp]
  rw [compose]
  by_cases hlead : (L0 ≤ a ∧ a < L0 + LN) ∧ V0 ≤ b ∧ b < V0 + VN
  · rw [if_pos hlead]
    obtain ⟨⟨ha, hal⟩, hb, hbv⟩ := hlead
    have hpairs := hU.pairs_open (show a - L0 < LN by omega) (show b - V0 < VN by omega)
    rw [Nat.add_sub_cancel' ha, Nat.add_sub_cancel' hb] at hpairs
    have hvalue : S0 + ((a - L0) * VN + b - V0) * TN = syllable (a - L0) (b - V0) 0 := by
      rw [syllable, Nat.add_zero, Nat.add_sub_assoc hb]
    rw [hvalue]
    exact hone hpairs
  · rw [if_neg hlead]
    by_cases htrail : Syllable a ∧ (a - S0) % TN = 0 ∧ T0 + 1 ≤ b ∧ b < T0 + TN
    · rw [if_pos htrail]
      obtain ⟨ha, hzero, hb, hbt⟩ := htrail
      obtain ⟨l, hl, v, hv, s, hs, hsyllable, -, -, hs'⟩ := exists_syllable ha
      have hs0 : s = 0 := hs'.symm.trans hzero
      subst hs0
      have hpairs := hU.pairs_closed hl hv (show b - T0 < TN by omega) (by omega)
      rw [Nat.add_sub_cancel' (by omega : T0 ≤ b), ← hsyllable] at hpairs
      have hvalue : a + b - T0 = syllable l v (b - T0) := by
        rw [hsyllable, syllable, syllable]
        omega
      rw [hvalue]
      exact hone hpairs
    · rw [if_neg htrail]
      have hnot {p : ℕ} (hp : U.Pairs a b p) : ¬Syllable p := by
        intro hs
        obtain ⟨l, hl, v, hv, rfl, rfl⟩ | ⟨l, hl, v, hv, s, hst, hpos, rfl, rfl⟩ := hU.pairs_syllable hp hs
        · exact hlead ⟨⟨by omega, by omega⟩, by omega, by omega⟩
        · refine htrail ⟨syllable_lt hl hv (by decide), ?_, by omega, by omega⟩
          simp only [syllable, S0, VN, TN]
          omega
      rw [Option.map_eq_some_iff]
      constructor
      · rintro ⟨⟨a', b', p'⟩, hfind, rfl⟩
        have hkey := List.find?_some hfind
        rw [Bool.and_eq_true, beq_iff_eq, beq_iff_eq] at hkey
        obtain ⟨rfl, rfl⟩ := hkey
        exact ((ht.composed _ _ _).mp (List.mem_of_find?_eq_some hfind)).1
      · intro hp
        have hmem := (ht.composed a b p).mpr ⟨hp, hnot hp⟩
        have hsome : (t.composed.find? fun e => e.1 == a && e.2.1 == b).isSome :=
          List.find?_isSome.mpr ⟨_, hmem, by simp⟩
        obtain ⟨e, hfind⟩ := Option.isSome_iff_exists.mp hsome
        refine ⟨e, hfind, ?_⟩
        obtain ⟨a', b', p'⟩ := e
        have hkey := List.find?_some hfind
        rw [Bool.and_eq_true, beq_iff_eq, beq_iff_eq] at hkey
        obtain ⟨rfl, rfl⟩ := hkey
        exact hU.eq_of_pairs ((ht.composed _ _ _).mp (List.mem_of_find?_eq_some hfind)).1 hp

/-! ## The pass -/

/-- What the pass keeps of what is out, when the last character was of class `k`: where the last starter is, and the
highest class behind it. -/
def Pass.Keeps (s : Pass) (U : Script ℕ) (k : ℕ) : Prop :=
  s.last ≤ k ∧
    match s.starter with
    | none => ∀ a ∈ s.out, U.cc a ≠ 0
    | some i => ∃ x l z, s.out = x ++ l :: z ∧ x.length = i ∧ U.cc l = 0 ∧ (∀ b ∈ z, U.cc b ≠ 0) ∧
        (∀ b ∈ z, U.cc b ≤ s.last) ∧ (z = [] → s.last = 0) ∧ (z ≠ [] → ∃ b ∈ z, U.cc b = s.last)

/-- The next character sees the starter just when the pass says so. -/
theorem Pass.opened_iff {s : Pass} {x : List ℕ} {l c : ℕ} {z : List ℕ} (hout : s.out = x ++ l :: z)
    (hmarks : ∀ b ∈ z, U.cc b ≠ 0) (hle : ∀ b ∈ z, U.cc b ≤ s.last) (hlast : z ≠ [] → ∃ b ∈ z, U.cc b = s.last) :
    s.opened (U.cc c) x.length = true ↔ ¬Blocked U.cc z c := by
  have hlength : s.out.length = x.length + z.length + 1 := by rw [hout]; simp; omega
  rw [Pass.opened, Bool.or_eq_true, Bool.and_eq_true, decide_eq_true_iff, decide_eq_true_iff, decide_eq_true_iff]
  constructor
  · rintro h ⟨b, hb, hblock⟩
    have hmark := hmarks b hb
    have hbelow := hle b hb
    have hpos := List.length_pos_of_mem hb
    omega
  · intro h
    by_cases hz : z = []
    · left
      rw [hlength, hz]
      rfl
    · obtain ⟨b, hb, hbl⟩ := hlast hz
      have hmark := hmarks b hb
      have hlt : ¬U.cc c ≤ U.cc b := fun hle => h ⟨b, hb, .inr hle⟩
      omega

/-- The starter in `out` that the next character sees and composes with. -/
theorem Pass.composite_eq_some (hU : Standard U) (ht : t.Follows U) {s : Pass} {k c p : ℕ} (hs : s.Keeps U k) :
    s.composite t c (U.cc c) = some p ↔
      ∃ x l z, Sees U.cc c s.out x l z ∧ U.Pairs l c p ∧ s.starter = some x.length := by
  obtain ⟨-, hs⟩ := hs
  rw [Pass.composite]
  cases hstarter : s.starter with
  | none => simp
  | some i =>
    rw [hstarter] at hs
    obtain ⟨x, l, z, hout, rfl, hl, hmarks, hle, -, hlast⟩ := hs
    have hopened := Pass.opened_iff (U := U) (c := c) hout hmarks hle hlast
    have hget : s.out.getD x.length 0 = l := by rw [hout]; simp
    rw [Option.bind_eq_some_iff]
    constructor
    · rintro ⟨i, hi, hp⟩
      rw [Option.filter_eq_some_iff] at hi
      obtain ⟨hi, hopen⟩ := hi
      cases hi
      rw [hget] at hp
      exact ⟨x, l, z, ⟨hout, hl, hopened.mp hopen⟩, (compose_eq_some hU ht).mp hp, rfl⟩
    · rintro ⟨x', l', z', hsees, hp, -⟩
      obtain ⟨rfl, rfl, rfl⟩ := last_starter (hout.symm.trans hsees.1) hl hsees.2.1 hmarks hsees.marks
      refine ⟨x.length, Option.filter_eq_some_iff.mpr ⟨rfl, hopened.mpr hsees.2.2⟩, ?_⟩
      rw [hget]
      exact (compose_eq_some hU ht).mpr hp

/-- A character that is put out is the last: a starter, or a mark of the highest class. -/
theorem Pass.keeps_put {s : Pass} {k c : ℕ} (hs : s.Keeps U k) (hk : U.cc c = 0 ∨ k ≤ U.cc c) :
    Pass.Keeps ⟨s.out ++ [c], if U.cc c = 0 then some s.out.length else s.starter, U.cc c⟩ U (U.cc c) := by
  obtain ⟨hlast, hs⟩ := hs
  refine ⟨le_rfl, ?_⟩
  by_cases hc : U.cc c = 0
  · rw [if_pos hc]
    exact ⟨s.out, c, [], rfl, rfl, hc, by simp, by simp, fun _ => hc, by simp⟩
  · rw [if_neg hc]
    cases hstarter : s.starter with
    | none =>
      rw [hstarter] at hs
      intro a ha
      obtain ha | ha := List.mem_append.mp ha
      · exact hs a ha
      · rw [List.mem_singleton.mp ha]
        exact hc
    | some i =>
      rw [hstarter] at hs
      obtain ⟨x, l, z, hout, hi, hl, hmarks, hle, -, -⟩ := hs
      refine ⟨x, l, z ++ [c], by rw [hout]; simp, hi, hl, ?_, ?_, by simp, fun _ => ⟨c, by simp, rfl⟩⟩
      · intro b hb
        obtain hb | hb := List.mem_append.mp hb
        · exact hmarks b hb
        · rw [List.mem_singleton.mp hb]
          exact hc
      · intro b hb
        obtain hb | hb := List.mem_append.mp hb
        · have hbelow := hle b hb
          change U.cc b ≤ U.cc c
          omega
        · rw [List.mem_singleton.mp hb]

/-- The composite takes the starter's place, and what stands behind stays. -/
theorem Pass.keeps_set (hU : Standard U) {s : Pass} {k c p l : ℕ} {x z : List ℕ} (hs : s.Keeps U k)
    (hsees : Sees U.cc c s.out x l z) (hp : U.Pairs l c p)
    (hstarter : s.starter = some x.length) : Pass.Keeps ⟨x ++ p :: z, s.starter, s.last⟩ U (U.cc c) := by
  obtain ⟨hlast, hs⟩ := hs
  rw [hstarter] at hs
  obtain ⟨x', l', z', hout, -, hl, hmarks, hle, hnil, hattained⟩ := hs
  obtain ⟨rfl, rfl, rfl⟩ := last_starter (hout.symm.trans hsees.1) hl hsees.2.1 hmarks hsees.marks
  refine ⟨?_, ?_⟩
  · by_cases hz : z' = []
    · rw [hnil hz]
      exact Nat.zero_le _
    · obtain ⟨b, hb, hbl⟩ := hattained hz
      have hwrong := hsees.wrong b hb
      rw [← hbl]
      exact hwrong.1.le
  · rw [hstarter]
    exact ⟨x', p, z', rfl, rfl, hU.lawful.cc_of_primary hp.1, hmarks, hle, hnil, hattained⟩

/-- One character of the pass is one of the composition. -/
theorem Pass.step_joins (hU : Standard U) (ht : t.Follows U) {s : Pass} {k c : ℕ} (hs : s.Keeps U k)
    (hk : U.cc c = 0 ∨ k ≤ U.cc c) :
    Joins U.cc U.Pairs s.out c (s.step t (c, U.cc c)).out ∧ (s.step t (c, U.cc c)).Keeps U (U.cc c) := by
  rw [Pass.step]
  cases hcomposite : s.composite t c (U.cc c) with
  | some p =>
    obtain ⟨x, l, z, hsees, hp, hstarter⟩ := (Pass.composite_eq_some hU ht hs).mp hcomposite
    have hset : s.out.set (s.starter.getD 0) p = x ++ p :: z := by
      rw [hstarter, hsees.1, Option.getD_some, List.set_append_right _ _ le_rfl, Nat.sub_self, List.set_cons_zero]
    dsimp only
    rw [hset]
    exact ⟨.join hsees hp, Pass.keeps_set hU hs hsees hp hstarter⟩
  | none =>
    refine ⟨.keep ?_, Pass.keeps_put hs hk⟩
    intro x l z p hsees hp
    cases hstarter : s.starter with
    | none =>
      have hall := hs.2
      rw [hstarter] at hall
      exact hall l (by rw [hsees.1]; simp) hsees.2.1
    | some i =>
      have hsome := hs.2
      rw [hstarter] at hsome
      obtain ⟨x', l', z', hout, hi, hl, hmarks, -, -, -⟩ := hsome
      obtain ⟨rfl, rfl, rfl⟩ := last_starter (hout.symm.trans hsees.1) hl hsees.2.1 hmarks hsees.marks
      have hsome := (Pass.composite_eq_some hU ht hs).mpr ⟨x', l', z', hsees, hp, by rw [hstarter, hi]⟩
      rw [hcomposite] at hsome
      cases hsome

/-- The pass composes the characters that come in canonical order. -/
theorem Pass.composes (hU : Standard U) (ht : t.Follows U) (d : List ℕ) {s : Pass} {k : ℕ} (hs : s.Keeps U k)
    (hk : Script.Follows U.cc k d) (hord : Ordered U.cc d) :
    Composes U.cc U.Pairs s.out d ((d.map fun c => (c, U.cc c)).foldl (Pass.step t) s).out := by
  induction d generalizing s k with
  | nil => exact .done s.out
  | cons c d ih =>
    obtain ⟨hjoins, hkeeps⟩ := Pass.step_joins hU ht hs (hk c rfl)
    exact .next hjoins (ih hkeeps (Script.follows_of_ordered hord) hord.tail)

/-! ## The whole -/

/-- The canonical decomposition of the text. -/
def canonical (U : Script ℕ) (text : List Char) : List ℕ := settled U.cc ((text.map Char.toNat).flatMap U.full)

/-- What the pass makes of a text. -/
def composition (t : Tables) (text : List Char) : List ℕ :=
  let d := text.foldl (fun d c => decompose t c.toNat d) []
  ((order (d.map fun c => (c, lookup t.classes c))).foldl (Pass.step t) {}).out

theorem composes_composition (hU : Standard U) (ht : t.Follows U) (text : List Char) :
    Composes U.cc U.Pairs [] (canonical U text) (composition t text) := by
  have hclasses : lookup t.classes = U.cc := funext ht.classes
  have horder : order (((text.map Char.toNat).flatMap U.full).map fun c => (c, U.cc c)) =
      (canonical U text).map fun c => (c, U.cc c) := by
    rw [order_eq, settled_map]
    rfl
  rw [composition, decomposed_text hU ht, List.nil_append, hclasses, horder]
  have hempty : Pass.Keeps {} U 0 := ⟨le_rfl, fun _ ha => nomatch ha⟩
  exact Pass.composes hU ht (canonical U text) hempty (fun _ _ => .inr (Nat.zero_le _)) (ordered_settled _)

theorem canonical_text (text : List Char) : U.Canonical (text.map Char.toNat) (canonical U text) :=
  Script.canonical_iff.mpr rfl

/-! ### Scalar values -/

theorem scalar_full (hU : Standard U) {a c : ℕ} (hc : c.isValidChar) (ha : a ∈ U.full c) : a.isValidChar := by
  induction c using U.acyclic.induction with
  | h c ih =>
    rw [Script.full_eq] at ha
    split_ifs at ha with hwhole
    · rw [List.mem_singleton.mp ha]
      exact hc
    · obtain ⟨b, hb, ha⟩ := List.mem_flatMap.mp ha
      exact ih b hb ((hU.scalar c hwhole).2 b hb) ha

theorem scalar_composes (hU : Standard U) {out rest r : List ℕ} (h : Composes U.cc U.Pairs out rest r)
    (hout : ∀ a ∈ out, a.isValidChar) (hrest : ∀ a ∈ rest, a.isValidChar) : ∀ a ∈ r, a.isValidChar := by
  induction h with
  | done out => exact hout
  | @next out c out' rest r hstep _ ih =>
    refine ih ?_ fun a ha => hrest a (List.mem_cons_of_mem c ha)
    cases hstep with
    | @join x l z p hsees hp =>
      rw [hsees.1] at hout
      intro a ha
      simp only [List.mem_append, List.mem_cons] at ha hout
      obtain ha | rfl | ha := ha
      · exact hout a (.inl ha)
      · exact (hU.scalar a hp.1.1).1
      · exact hout a (.inr (.inr ha))
    | keep _ =>
      intro a ha
      obtain ha | ha := List.mem_append.mp ha
      · exact hout a ha
      · rw [List.mem_singleton.mp ha]
        exact hrest c List.mem_cons_self

theorem scalar_composition (hU : Standard U) (ht : t.Follows U) (text : List Char) :
    ∀ a ∈ composition t text, a.isValidChar := by
  refine scalar_composes hU (composes_composition hU ht text) (fun _ ha => nomatch ha) ?_
  intro a ha
  obtain ⟨c, hc, ha⟩ := List.mem_flatMap.mp ((mem_reorders (canonical_text (U := U) text).1).mpr ha)
  obtain ⟨e, -, rfl⟩ := List.mem_map.mp hc
  have he : e.toNat.isValidChar := e.valid
  exact scalar_full hU he ha

theorem map_filterMap_fromU32 {l : List ℕ} (h : ∀ a ∈ l, a.isValidChar) : (l.filterMap fromU32).map Char.toNat = l := by
  induction l with
  | nil => rfl
  | cons a l ih =>
    have ha := h a List.mem_cons_self
    have hsome : fromU32 a = some (Char.ofNat a) := if_pos ha
    rw [List.filterMap_cons_some hsome, List.map_cons, ih fun b hb => h b (List.mem_cons_of_mem a hb)]
    rw [Char.toNat_ofNat, if_pos ha]

/-! ### Normalization Form C -/

theorem composed_nfc (hU : Standard U) (ht : t.Follows U) (text : List Char) :
    U.Composed (text.map Char.toNat) ((nfc t text).map Char.toNat) ∧
      U.Composed ((nfc t text).map Char.toNat) ((nfc t text).map Char.toNat) := by
  by_cases hlow : text.all fun c => c.toNat < 0x300
  · have hsame : nfc t text = text := if_pos hlow
    have hall : ∀ a ∈ text.map Char.toNat, a < 0x300 := by
      intro a ha
      obtain ⟨c, hc, rfl⟩ := List.mem_map.mp ha
      simpa using List.all_eq_true.mp hlow c hc
    have hself := hU.lawful.composed_text hU.low hall
    rw [hsame]
    exact ⟨hself, hself⟩
  · have hnfc : nfc t text = (composition t text).filterMap fromU32 := if_neg hlow
    have hcomposes := composes_composition hU ht text
    rw [hnfc, map_filterMap_fromU32 (scalar_composition hU ht text)]
    exact ⟨hU.lawful.composed_of_pairs (canonical_text text) hcomposes,
      hU.lawful.composed_self (canonical_text text) hcomposes⟩

/-- With the tables of the standard, `nfc` returns the normal form of any text, and no other text is its normal form;
and the normal form is its own. -/
theorem nfc_normalizes (hU : Standard U) (ht : t.Follows U) (text : List Char) :
    (∀ r, nfc t text = r ↔ U.Composed (text.map Char.toNat) (r.map Char.toNat)) ∧ nfc t (nfc t text) = nfc t text := by
  have hunique (text r : List Char) : nfc t text = r ↔ U.Composed (text.map Char.toNat) (r.map Char.toNat) := by
    constructor
    · rintro rfl
      exact (composed_nfc hU ht text).1
    · intro h
      have heq := hU.lawful.composed_unique (composed_nfc hU ht text).1 h
      exact List.map_injective_iff.mpr (fun _ _ => Char.toNat_inj.mp) heq
  exact ⟨hunique text, (hunique _ _).mpr (composed_nfc hU ht text).2⟩

def acuteTables : Tables where
  letters := []
  classes := [(0x301, 0x301, 230)]
  decomposed := [(0xE9, 0x65, 0x301)]
  composed := [(0x65, 0x301, 0xE9)]
  letters_sorted := by decide
  classes_sorted := by decide
  decomposed_sorted := by decide
  composed_sorted := by decide
  acyclic := by
    refine Subrelation.wf ?_ (InvImage.wf (fun c => if c = 0xE9 then 1 else 0) Nat.lt_wfRel.wf)
    rintro x c ⟨e, he, rfl, hx⟩
    cases List.mem_singleton.mp he
    obtain rfl | rfl := hx <;> exact (by decide : (0 : ℕ) < 1)

theorem acuteTables_follows : acuteTables.Follows acute where
  classes c := by
    by_cases hc : c = 0x301
    · subst hc
      rfl
    · have hcc : acute.cc c = 0 := if_neg hc
      rw [hcc, lookup]
      split
      next e he =>
        have hmem := List.mem_of_find?_eq_some he
        have hle := List.find?_some he
        rw [List.mem_singleton.mp hmem] at hle ⊢
        simp only [decide_eq_true_eq] at hle
        exact if_neg (by omega)
      next => rfl
  decomposed c hc := by
    have hparts : acute.parts c = if c = 0xE9 then [0x65, 0x301] else [] := if_neg hc
    rw [hparts]
    by_cases he : c = 0xE9
    · subst he
      rfl
    · have hrow : acuteTables.row c = none := List.find?_eq_none.mpr (by simp [acuteTables, Ne.symm he])
      rw [if_neg he, Tables.parts, hrow]
  composed a b p := by
    constructor
    · intro h
      cases List.mem_singleton.mp h
      exact ⟨⟨⟨List.cons_ne_nil _ _, id⟩, rfl⟩, by decide⟩
    · rintro ⟨⟨hp, hparts⟩, hsyllable⟩
      obtain ⟨l, hl, v, hv, rfl, -⟩ | ⟨l, hl, v, hv, s, hs, -, rfl, -⟩ | ⟨rfl, hparts'⟩ := acute_cases hp.1
      · exact absurd (syllable_lt hl hv (by decide)) hsyllable
      · exact absurd (syllable_lt hl hv hs) hsyllable
      · rw [hparts'] at hparts
        cases hparts
        exact List.mem_singleton.mpr rfl

/-- An accent that comes apart from its letter is composed with it. -/
theorem nfc_acute : nfc acuteTables ['e', '\u0301'] = ['\u00E9'] ∧ acute.Composed [0x65, 0x301] [0xE9] := by
  have hnormal := nfc_normalizes acute_standard acuteTables_follows ['e', '\u0301']
  have hvalue : nfc acuteTables ['e', '\u0301'] = ['\u00E9'] := by
    have hletter : decompose acuteTables 0x65 [] = [0x65] := by rw [decompose]; rfl
    have haccent : decompose acuteTables 0x301 [0x65] = [0x65, 0x301] := by rw [decompose]; rfl
    have horder : order [(0x65, 0), (0x301, 230)] = [(0x65, 0), (0x301, 230)] := by rw [order_eq]; decide
    have hpass : composition acuteTables ['e', '\u0301'] = [0xE9] := by
      have hd : ['e', '\u0301'].foldl (fun d c => decompose acuteTables c.toNat d) [] = [0x65, 0x301] := by
        rw [List.foldl_cons, List.foldl_cons, List.foldl_nil]
        exact (congrArg (decompose acuteTables 0x301) hletter).trans haccent
      rw [composition, hd]
      exact congrArg (fun l => (l.foldl (Pass.step acuteTables) {}).out) horder
    have hnfc : nfc acuteTables ['e', '\u0301'] = (composition acuteTables ['e', '\u0301']).filterMap fromU32 :=
      if_neg (by decide)
    rw [hnfc, hpass]
    decide
  exact ⟨hvalue, (hnormal.1 _).mp hvalue⟩

end Chatlink.Token.Nfc
