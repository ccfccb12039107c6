import Chatlink.Agent.ResolverSteps

/-!
# What the filters leave

The candidates of a request pass five filters: dominated names, repeated codes, namesakes, testers
and reference numbers. Here is what the five leave together, said of the articles themselves and
not of the lists in between: when one article remains, each of the others is dominated, or has a
namesake before it, or yields to the one that remains.
-/
namespace Chatlink.Agent

open Lists

variable {U : Unicode}

/-! ## Filters that keep something -/

/-- A candidate is kept when it passes the filter as soon as any other one does. -/
theorem mem_poda {p : Opcion → Bool} {l : List Opcion} {c : Opcion} :
    c ∈ poda p l ↔ c ∈ l ∧ ∀ d ∈ l, p d → p c := by
  unfold poda
  dsimp only
  split
  · next h =>
    have hnone : ∀ d ∈ l, p d = false := by simpa using h
    refine ⟨fun hc => ⟨hc, fun d hd hp => ?_⟩, fun hc => hc.1⟩
    rw [hnone d hd] at hp
    cases hp
  · next h =>
    rw [List.mem_filter]
    refine and_congr_right fun hc => ⟨fun hp _ _ _ => hp, fun hall => ?_⟩
    obtain ⟨d, hd, hp⟩ : ∃ d ∈ l, p d := by simpa using h
    exact hall d hd hp

theorem poda_of_all {p : Opcion → Bool} {l : List Opcion} (h : ∀ c ∈ l, p c) : poda p l = l := by
  unfold poda
  dsimp only
  rw [List.filter_eq_self.mpr h]
  exact ite_self l

theorem nodup_poda {p : Opcion → Bool} {l : List Opcion} (h : l.Nodup) : (poda p l).Nodup := by
  unfold poda
  dsimp only
  split
  · exact h
  · exact h.filter p

theorem propio_card {a b : List Texto} (h : propio a b) : a.toFinset.card < b.toFinset.card := by
  unfold propio at h
  simp only [Bool.and_eq_true, List.all_eq_true, List.contains_iff_mem, Bool.not_eq_true',
    List.all_eq_false] at h
  obtain ⟨hsub, t, ht, hnot⟩ := h
  apply Finset.card_lt_card
  refine Finset.ssubset_iff_of_subset (fun s hs => ?_) |>.mpr ⟨t, by simpa using ht, by simpa using hnot⟩
  simpa using hsub s (by simpa using hs)

/-- Some candidate has a name with fewer words than the others strictly contain. -/
def Dominado (U : Unicode) (l : List Opcion) (c : Opcion) : Prop :=
  ∃ a ∈ l, propio (canonTokens U a.name) (canonTokens U c.name)

/-- The candidates whose name no other one's is part of. -/
def enPie (U : Unicode) (l : List Opcion) : List Opcion :=
  l.filter fun b => !l.any fun a => propio (canonTokens U a.name) (canonTokens U b.name)

theorem mem_enPie {l : List Opcion} {c : Opcion} : c ∈ enPie U l ↔ c ∈ l ∧ ¬ Dominado U l c := by
  unfold enPie Dominado
  rw [List.mem_filter]
  simp

/-- A name of the fewest words is part of no other one, so that something is left. -/
theorem dominancia_eq (l : List Opcion) : dominancia U l = enPie U l := by
  unfold dominancia
  change (if (enPie U l).isEmpty then l else enPie U l) = enPie U l
  split
  · next h =>
    rcases l.eq_nil_or_concat with rfl | ⟨l', d, hl⟩
    · rfl
    · obtain ⟨c, hc, hmin⟩ := Finset.exists_min_image l.toFinset
        (fun c => (canonTokens U c.name).toFinset.card) ⟨d, by simp [hl]⟩
      have hpie : c ∈ enPie U l := by
        refine mem_enPie.mpr ⟨by simpa using hc, ?_⟩
        rintro ⟨a, ha, hac⟩
        have hle := hmin a (by simpa using ha)
        have hlt := propio_card hac
        omega
      rw [List.isEmpty_iff.mp h] at hpie
      cases hpie
  · rfl

/-! ## Repeated codes and namesakes -/

theorem dedup_eq_self {l : List Opcion} {vistos : List Texto} (hl : (l.map Opcion.code).Nodup)
    (hne : ∀ c ∈ l, c.code ≠ []) (hvistos : ∀ c ∈ l, c.code ∉ vistos) : dedup vistos l = l := by
  induction l generalizing vistos with
  | nil => rfl
  | cons c l ih =>
    rw [List.map_cons, List.nodup_cons] at hl
    have hc1 : c.code.isEmpty = false := by simpa using hne c List.mem_cons_self
    have hc2 : vistos.contains c.code = false := by simpa using hvistos c List.mem_cons_self
    unfold dedup
    rw [hc1, hc2]
    simp only [Bool.or_self, Bool.false_eq_true, if_false]
    rw [ih hl.2 (fun d hd => hne d (List.mem_cons_of_mem c hd))]
    intro d hd hmem
    rcases List.mem_cons.mp hmem with heq | hmem
    · exact hl.1 (heq ▸ List.mem_map_of_mem hd)
    · exact hvistos d (List.mem_cons_of_mem c hd) hmem

/-- Without dates the first of a group counts as its newest. -/
theorem masNuevo_eq_head? {l : List Opcion} (h : ∀ c ∈ l, c.fecha = []) : masNuevo l = l.head? := by
  cases l with
  | nil => rfl
  | cons c l =>
    refine congrArg some (foldl_keeps (P := fun best : Opcion => best = c) l ?_ rfl)
    rintro best d hd rfl
    rw [h best List.mem_cons_self, h d (List.mem_cons_of_mem _ hd)]
    simp

/-- The candidate is the first of its name. -/
def Primero (U : Unicode) (l : List Opcion) (c : Opcion) : Prop :=
  (l.find? fun d => normNombre U d.name = normNombre U c.name) = some c

theorem masNuevo_filter_eq {l : List Opcion} (h : ∀ c ∈ l, c.fecha = []) (k : Texto) :
    masNuevo (l.filter fun c => normNombre U c.name = k) =
      l.find? fun c => normNombre U c.name = k := by
  rw [masNuevo_eq_head? fun c hc => h c (List.mem_of_mem_filter hc), List.head?_filter]

theorem mem_colapsarGemelos {l : List Opcion} (h : ∀ c ∈ l, c.fecha = []) {c : Opcion} :
    c ∈ colapsarGemelos U l ↔ Primero U l c := by
  unfold colapsarGemelos
  rw [List.mem_filterMap]
  constructor
  · rintro ⟨k, -, hk⟩
    rw [masNuevo_filter_eq h] at hk
    have hname : normNombre U c.name = k := by simpa using List.find?_some hk
    subst hname
    exact hk
  · intro hc
    refine ⟨normNombre U c.name, ?_, (masNuevo_filter_eq h _).trans hc⟩
    rw [List.mem_eraseDups]
    exact List.mem_map_of_mem (f := fun c : Opcion => normNombre U c.name) (List.mem_of_find?_eq_some hc)

theorem nodup_colapsarGemelos {l : List Opcion} (h : ∀ c ∈ l, c.fecha = []) :
    (colapsarGemelos U l).Nodup := by
  unfold colapsarGemelos
  refine (nodup_eraseDups (l.map fun c => normNombre U c.name)).filterMap ?_
  intro k k' c hk hk'
  rw [Option.mem_def, masNuevo_filter_eq h] at hk hk'
  have h1 : normNombre U c.name = k := by simpa using List.find?_some hk
  have h2 : normNombre U c.name = k' := by simpa using List.find?_some hk'
  exact h1.symm.trans h2

/-! ## All of them -/

def pidioTester (U : Unicode) (texto : Texto) : Bool :=
  Texto.contains (U.lower texto) "tester" || Texto.contains (U.lower texto) "test"

/-- The candidate is no tester, or testers were asked for. -/
def sinTester (U : Unicode) (texto : Texto) (c : Opcion) : Bool :=
  pidioTester U texto || !esTester U c

/-- The name carries one of the reference numbers of the text, if there are any. -/
def conReferencia (texto : Texto) (c : Opcion) : Bool :=
  (numsRef texto).isEmpty || (numsRef texto).any fun n => Texto.contains c.name n

/-- The candidate is on foot after the first three filters. -/
def Cabeza (U : Unicode) (l : List Opcion) (c : Opcion) : Prop := Primero U (enPie U l) c

/-- What the last two filters prefer: no tester, and then the number of the text. -/
def Cede (U : Unicode) (texto : Texto) (c d : Opcion) : Prop :=
  (sinTester U texto c ∧ sinTester U texto d = false) ∨
    (sinTester U texto d = sinTester U texto c ∧ conReferencia texto c ∧
      conReferencia texto d = false)

/-- The candidate that remains alone: every other one on foot yields to it. -/
def Gana (U : Unicode) (texto : Texto) (l : List Opcion) (c : Opcion) : Prop :=
  Cabeza U l c ∧ ∀ d, Cabeza U l d → d = c ∨ Cede U texto c d

/-- Two filters leave one candidate when each of the others falls behind it at the first filter
that tells the two apart. -/
theorem poda_poda_eq_singleton_iff {p q : Opcion → Bool} {l : List Opcion} (h : l.Nodup)
    {c : Opcion} : poda q (poda p l) = [c] ↔
      c ∈ l ∧ ∀ d ∈ l, d = c ∨ (p c ∧ p d = false) ∨ (p d = p c ∧ q c ∧ q d = false) := by
  rw [eq_singleton_iff (nodup_poda (nodup_poda h))]
  constructor
  · rintro ⟨hc, hall⟩
    obtain ⟨hc1, hq⟩ := mem_poda.mp hc
    obtain ⟨hcl, hp⟩ := mem_poda.mp hc1
    refine ⟨hcl, fun d hd => or_iff_not_imp_left.mpr fun hne => ?_⟩
    by_cases hd1 : d ∈ poda p l
    · have hpd := (mem_poda.mp hd1).2 c hcl
      have hd2 : ¬ ∀ x ∈ poda p l, q x → q d := fun hd2 => hne (hall d (mem_poda.mpr ⟨hd1, hd2⟩))
      push Not at hd2
      obtain ⟨x, hx, hqx, hqd⟩ := hd2
      refine Or.inr ⟨Bool.eq_iff_iff.mpr ⟨hp d hd, hpd⟩, hq x hx hqx, by simpa using hqd⟩
    · have hd1 : ¬ ∀ x ∈ l, p x → p d := fun hp => hd1 (mem_poda.mpr ⟨hd, hp⟩)
      push Not at hd1
      obtain ⟨x, hx, hpx, hpd⟩ := hd1
      exact Or.inl ⟨hp x hx hpx, by simpa using hpd⟩
  · rintro ⟨hc, hall⟩
    have hc1 : c ∈ poda p l := by
      refine mem_poda.mpr ⟨hc, fun d hd hpd => ?_⟩
      rcases hall d hd with rfl | ⟨hpc, -⟩ | ⟨heq, -⟩
      · exact hpd
      · exact hpc
      · exact heq ▸ hpd
    have hbehind {d : Opcion} (hd : d ∈ poda p l) (hne : d ≠ c) : q c ∧ q d = false := by
      obtain ⟨hdl, hpd⟩ := mem_poda.mp hd
      rcases hall d hdl with rfl | ⟨hpc, hpd'⟩ | ⟨-, hq⟩
      · exact absurd rfl hne
      · rw [hpd c hc hpc] at hpd'
        cases hpd'
      · exact hq
    refine ⟨mem_poda.mpr ⟨hc1, fun d hd hqd => ?_⟩, fun d hd => ?_⟩
    · rcases eq_or_ne d c with rfl | hne
      · exact hqd
      · exact (hbehind hd hne).1
    · by_contra hne
      obtain ⟨hd1, hqd⟩ := mem_poda.mp hd
      obtain ⟨hqc, hqd'⟩ := hbehind hd1 hne
      rw [hqd c hc1 hqc] at hqd'
      cases hqd'

/-- A request without a typed code, over articles with codes of their own and no dates. -/
theorem candidatos_eq_singleton_iff {texto : Texto} {hits : List Hit} {c : Opcion}
    (htexto : codesInText U texto = []) (hcover : ∀ x ∈ hits, x.coversQuery)
    (hcodes : (hits.map Hit.codigoArticulo).Nodup) (hne : ∀ x ∈ hits, x.codigoArticulo ≠ [])
    (hfecha : ∀ x ∈ hits, x.fechaAlta = []) :
    candidatos U texto [] hits = [c] ↔ Gana U texto (hits.map hitOpt) c := by
  have hsub : enPie U (hits.map hitOpt) ⊆ hits.map hitOpt := List.filter_subset_self _
  have hhit {d : Opcion} (hd : d ∈ enPie U (hits.map hitOpt)) : d.code ≠ [] ∧ d.fecha = [] := by
    obtain ⟨x, hx, rfl⟩ := List.mem_map.mp (hsub hd)
    exact ⟨hne x hx, hfecha x hx⟩
  have hnd : ((enPie U (hits.map hitOpt)).map Opcion.code).Nodup := by
    refine List.Nodup.sublist (List.Sublist.map _ List.filter_sublist) ?_
    rw [List.map_map]
    exact hcodes
  have hdedup := dedup_eq_self hnd (fun d hd => (hhit hd).1) (fun d _ => List.not_mem_nil (a := d.code))
  have hfull : (if (hits.filter Hit.coversQuery).isEmpty then hits
      else hits.filter Hit.coversQuery) = hits := by
    rw [List.filter_eq_self.mpr hcover]
    exact ite_self hits
  have hkept : (enPie U (hits.map hitOpt)).filter
      (fun c => !c.code.isEmpty && !([] : List Texto).contains c.code) =
        enPie U (hits.map hitOpt) := by
    refine List.filter_eq_self.mpr fun d hd => ?_
    simpa using (hhit hd).1
  have hpodas (l : List Opcion) :
      (let l := if pidioTester U texto then l else poda (fun c => !esTester U c) l
        if (numsRef texto).isEmpty then l
        else poda (fun c => (numsRef texto).any fun n => Texto.contains c.name n) l) =
      poda (conReferencia texto) (poda (sinTester U texto) l) := by
    unfold conReferencia sinTester
    cases pidioTester U texto <;> cases (numsRef texto).isEmpty <;> simp [poda_of_all]
  unfold candidatos
  have hcol : (if (enPie U (hits.map hitOpt)).any fun c => ([] : List Texto).contains c.code
      then enPie U (hits.map hitOpt) else colapsarGemelos U (enPie U (hits.map hitOpt))) =
        colapsarGemelos U (enPie U (hits.map hitOpt)) := if_neg (by simp)
  simp only [hfull, dominancia_eq, hdedup, hkept, htexto, hcol]
  have hfechas (d : Opcion) (hd : d ∈ enPie U (hits.map hitOpt)) : d.fecha = [] := (hhit hd).2
  refine (Eq.congr_left (hpodas (colapsarGemelos U (enPie U (hits.map hitOpt))))).trans ?_
  rw [poda_poda_eq_singleton_iff (nodup_colapsarGemelos hfechas)]
  simp only [mem_colapsarGemelos hfechas]
  rfl

end Chatlink.Agent
