import Chatlink.Identity.Clients
import Chatlink.Lib.Lists

/-!
# The identity is unambiguous or off

The rows that decide who a phone belongs to are those of the whole table. The query
shows the code only some of them: a number with other characters between its digits is
not matched by the server, and of the rows that are matched only the first twenty-five
come back. The identity that is returned is the right one exactly when neither hides a
client.
-/
namespace Chatlink.Identity

open Lists

variable {U : Unicode} {orden : MSClient → MSClient → Bool} {tabla rows : List MSClient}
  {phone term : Texto} {r : MSClient} {c : Texto}

/-! ## Codes -/

theorem candidateCodes_concat (rows : List MSClient) (r : MSClient) :
    candidateCodes (rows ++ [r]) =
      if !r.code.isEmpty && !(candidateCodes rows).contains r.code then candidateCodes rows ++ [r.code]
      else candidateCodes rows := by
  simp [candidateCodes]

theorem mem_candidateCodes : c ∈ candidateCodes rows ↔ c ≠ [] ∧ ∃ r ∈ rows, r.code = c := by
  induction rows using List.reverseRecOn with
  | nil => simp [candidateCodes]
  | append_singleton rows r ih =>
    rw [candidateCodes_concat]
    split
    · next h =>
      obtain ⟨hne, -⟩ := Bool.and_eq_true_iff.mp h
      rw [List.mem_append, ih, List.mem_singleton]
      simp only [List.mem_append, List.mem_singleton]
      constructor
      · rintro (⟨hc, r', hr', rfl⟩ | rfl)
        · exact ⟨hc, r', Or.inl hr', rfl⟩
        · exact ⟨by simpa using hne, r, Or.inr rfl, rfl⟩
      · rintro ⟨hc, r', hr' | rfl, rfl⟩
        · exact Or.inl ⟨hc, r', hr', rfl⟩
        · exact Or.inr rfl
    · next h =>
      rw [ih]
      simp only [List.mem_append, List.mem_singleton]
      constructor
      · rintro ⟨hc, r', hr', rfl⟩
        exact ⟨hc, r', Or.inl hr', rfl⟩
      · rintro ⟨hc, r', hr' | rfl, rfl⟩
        · exact ⟨hc, r', hr', rfl⟩
        · -- the code of the last row was there already
          have hmem : r'.code ∈ candidateCodes rows := by simpa [hc] using h
          exact ih.mp hmem

theorem nodup_candidateCodes (rows : List MSClient) : (candidateCodes rows).Nodup := by
  induction rows using List.reverseRecOn with
  | nil => exact List.nodup_nil
  | append_singleton rows r ih =>
    rw [candidateCodes_concat]
    split
    · next h =>
      have hnot : r.code ∉ candidateCodes rows := by simpa using (Bool.and_eq_true_iff.mp h).2
      exact List.nodup_append.mpr ⟨ih, List.nodup_singleton _, by
        rintro a ha b hb rfl
        exact hnot (List.mem_singleton.mp hb ▸ ha)⟩
    · exact ih

/-- One code exactly: it is there and there is no other. -/
theorem candidateCodes_eq_singleton :
    candidateCodes rows = [c] ↔ c ∈ candidateCodes rows ∧ ∀ c' ∈ candidateCodes rows, c' = c := by
  constructor
  · intro h
    simp [h]
  · rintro ⟨hc, hall⟩
    have hnodup := nodup_candidateCodes rows
    match hcodes : candidateCodes rows with
    | [] => simp [hcodes] at hc
    | [a] => simp [hall a (by simp [hcodes])]
    | a :: b :: l =>
      have hab : a = b := by rw [hall a (by simp [hcodes]), hall b (by simp [hcodes])]
      simp [hcodes, hab] at hnodup

theorem pickIdentity_code (kind : MatchKind) :
    ((pickIdentity rows kind).historyAllowed = true ∧ (pickIdentity rows kind).code = some c) ↔
      candidateCodes rows = [c] := by
  cases rows with
  | nil => simp [pickIdentity, ClientIdentity.historyAllowed, candidateCodes]
  | cons r rows =>
    simp only [pickIdentity, ClientIdentity.historyAllowed]
    by_cases hone : (candidateCodes (r :: rows)).length = 1
    · obtain ⟨d, hd⟩ := List.length_eq_one_iff.mp hone
      have hne : d ≠ [] := (mem_candidateCodes.mp (by rw [hd]; exact List.mem_singleton.mpr rfl)).1
      simp [hd, hne]
    · have hno : candidateCodes (r :: rows) ≠ [c] := fun h => hone (by rw [h]; rfl)
      simp [hone, hno]

/-! ## The rows that decide -/

/-- The rows whose numbers end in the term, or if there is none those that contain it. -/
def decisivas (U : Unicode) (term : Texto) (rows : List MSClient) : List MSClient :=
  if rows.any (terminaEn U term) then rows.filter (terminaEn U term)
  else rows.filter (contiene U term)

theorem pickIdentity_found (rows : List MSClient) (kind : MatchKind) :
    (if (pickIdentity rows kind).found then pickIdentity rows kind else {}) = pickIdentity rows kind := by
  cases rows <;> rfl

/-- The identity is that of the deciding rows among those the query returned. -/
theorem resolve_eq (orden : MSClient → MSClient → Bool) (tabla : List MSClient)
    (hlen : 9 ≤ (normPhone U phone).length) :
    ∃ kind, resolveClientByPhone U orden tabla phone = pickIdentity (decisivas U (normPhone U phone)
      (candidatos orden tabla (normPhone U phone))) kind := by
  generalize hrows : candidatos orden tabla (normPhone U phone) = rows
  simp only [resolveClientByPhone, if_neg (Nat.not_lt.mpr hlen), hrows]
  by_cases hany : rows.any (terminaEn U (normPhone U phone))
  · have hne : (rows.filter (terminaEn U (normPhone U phone))).isEmpty = false := by
      simpa [List.isEmpty_eq_false_iff, List.filter_eq_nil_iff] using hany
    refine ⟨.suffix, ?_⟩
    rw [hne, decisivas, if_pos hany]
    exact pickIdentity_found _ _
  · have hno : ∀ r ∈ rows, terminaEn U (normPhone U phone) r = false := by simpa using hany
    have hnil : (rows.filter (terminaEn U (normPhone U phone))).isEmpty = true := by
      simpa [List.filter_eq_nil_iff] using hno
    have hcont : rows.filter (fun r => !terminaEn U (normPhone U phone) r &&
        contiene U (normPhone U phone) r) = rows.filter (contiene U (normPhone U phone)) := by
      refine List.filter_congr fun r hr => ?_
      rw [hno r hr]
      rfl
    refine ⟨.contains, ?_⟩
    rw [hnil, decisivas, if_neg hany, hcont]
    exact pickIdentity_found _ _

/-! ## What the server matches -/

theorem stripPunctSql_eq (t : Texto) : stripPunctSql t = t.filter fun d => !phonePunct.contains d := by
  simp only [stripPunctSql, phonePunct, List.foldl_cons, List.foldl_nil, List.filter_filter]
  refine List.filter_congr fun d _ => ?_
  rw [Bool.eq_iff_iff]
  simp
  tauto

/-- The digits of the term stand together, with nothing between them but what both sides
strip. -/
def Seguidas (U : Unicode) (term t : Texto) : Prop :=
  ∃ u, u <:+: t ∧ onlyDigits U u = term ∧ ∀ d ∈ u, U.isDecimal d = true ∨ d ∈ phonePunct

theorem isDecimal_of_punct {d : Char} (h : d ∈ phonePunct) : U.isDecimal d = false := by
  have hall : phonePunct.all fun d => d.toNat < 128 ∧ ¬ (48 ≤ d.toNat ∧ d.toNat ≤ 57) := by decide
  have hascii := of_decide_eq_true (List.all_eq_true.mp hall d h)
  rw [Unicode.isDecimal, U.decimal_ascii d hascii.1, if_neg hascii.2]
  rfl

/-- In a text of digits and punctuation the server strips what the program strips. -/
theorem filter_punct_eq {u : Texto} (h : ∀ d ∈ u, U.isDecimal d = true ∨ d ∈ phonePunct) :
    (u.filter fun d => !phonePunct.contains d) = onlyDigits U u := by
  refine List.filter_congr fun d hd => ?_
  rcases h d hd with h | h
  · have hp : d ∉ phonePunct := fun hp => by simp [isDecimal_of_punct hp] at h
    simp [h, hp]
  · simp [h, isDecimal_of_punct h]

theorem contains_stripPunctSql (hterm : ∀ d ∈ term, U.isDecimal d = true) (t : Texto) :
    Texto.contains (stripPunctSql t) term = true ↔ Seguidas U term t := by
  rw [Texto.contains_iff, stripPunctSql_eq, infix_filter_iff]
  refine exists_congr fun u => and_congr_right fun _ => ?_
  constructor
  · rintro rfl
    have hall : ∀ d ∈ u, U.isDecimal d = true ∨ d ∈ phonePunct := by
      intro d hd
      by_cases hp : d ∈ phonePunct
      · exact Or.inr hp
      · exact Or.inl (hterm d (List.mem_filter.mpr ⟨hd, by simpa using hp⟩))
    exact ⟨(filter_punct_eq hall).symm, hall⟩
  · rintro ⟨rfl, hall⟩
    exact filter_punct_eq hall

theorem normPhone_digits {d : Char} (h : d ∈ normPhone U phone) : U.isDecimal d = true := by
  have hd : d ∈ onlyDigits U phone := by
    unfold normPhone at h
    dsimp only at h
    split at h
    · exact List.mem_of_mem_drop h
    · exact h
  exact (List.mem_filter.mp hd).2

theorem enConsulta_iff :
    enConsulta (normPhone U phone) r = true ↔ ∃ t ∈ r.telefonos, Seguidas U (normPhone U phone) t := by
  simp only [enConsulta, List.any_eq_true, contains_stripPunctSql fun d hd => normPhone_digits hd]

/-! ## Over the whole table -/

/-- What is to be relied on: the server shows every row that the program would count, and
an identity that opens the order history is that of the one client among all the rows
that decide. -/
structure IdentitySound (U : Unicode) (orden : MSClient → MSClient → Bool) (tabla : List MSClient)
    (phone : Texto) : Prop where
  superset : 9 ≤ (normPhone U phone).length → ∀ r ∈ tabla,
    contiene U (normPhone U phone) r = true → enConsulta (normPhone U phone) r = true
  unambiguous : (resolveClientByPhone U orden tabla phone).historyAllowed = true →
    ∃ c, (resolveClientByPhone U orden tabla phone).code = some c ∧
      candidateCodes (decisivas U (normPhone U phone) tabla) = [c]

/-- Neither the punctuation nor the cap hides a client. -/
structure NadieOculto (U : Unicode) (orden : MSClient → MSClient → Bool) (tabla : List MSClient)
    (term : Texto) : Prop where
  /-- A row that has the digits has them together in some column. -/
  seguidas : ∀ r ∈ tabla, contiene U term r = true → ∃ t ∈ r.telefonos, Seguidas U term t
  /-- The rows returned name nobody or two clients, or else everyone that the deciding
  rows of the table name, who are not nobody. -/
  visibles :
    (∀ r ∈ decisivas U term (candidatos orden tabla term), r.code = []) ∨
    (∃ r ∈ decisivas U term (candidatos orden tabla term),
      ∃ r' ∈ decisivas U term (candidatos orden tabla term),
        r.code ≠ [] ∧ r'.code ≠ [] ∧ r.code ≠ r'.code) ∨
    (∃ r ∈ decisivas U term tabla, r.code ≠ []) ∧
      ∀ r ∈ decisivas U term tabla, r.code ≠ [] →
        ∃ v ∈ decisivas U term (candidatos orden tabla term), v.code = r.code

theorem unambiguous_iff {vs ts : List MSClient} :
    (∀ c, candidateCodes vs = [c] → candidateCodes ts = [c]) ↔
      (∀ r ∈ vs, r.code = []) ∨
      (∃ r ∈ vs, ∃ r' ∈ vs, r.code ≠ [] ∧ r'.code ≠ [] ∧ r.code ≠ r'.code) ∨
      (∃ r ∈ ts, r.code ≠ []) ∧ ∀ r ∈ ts, r.code ≠ [] → ∃ v ∈ vs, v.code = r.code := by
  constructor
  · intro h
    by_cases hnone : ∀ r ∈ vs, r.code = []
    · exact Or.inl hnone
    · obtain ⟨v, hv, hvc⟩ : ∃ v ∈ vs, v.code ≠ [] := by simpa using hnone
      by_cases htwo : ∃ r ∈ vs, ∃ r' ∈ vs, r.code ≠ [] ∧ r'.code ≠ [] ∧ r.code ≠ r'.code
      · exact Or.inr (Or.inl htwo)
      · -- the rows returned name one client
        have hone : candidateCodes vs = [v.code] := by
          refine candidateCodes_eq_singleton.mpr ⟨mem_candidateCodes.mpr ⟨hvc, v, hv, rfl⟩, ?_⟩
          intro c' hc'
          obtain ⟨hne, r, hr, rfl⟩ := mem_candidateCodes.mp hc'
          by_contra hdiff
          exact htwo ⟨r, hr, v, hv, hne, hvc, hdiff⟩
        obtain ⟨hmem, hall⟩ := candidateCodes_eq_singleton.mp (h v.code hone)
        obtain ⟨-, r, hr, hrc⟩ := mem_candidateCodes.mp hmem
        refine Or.inr (Or.inr ⟨⟨r, hr, hrc ▸ hvc⟩, fun r' hr' hne => ⟨v, hv, ?_⟩⟩)
        exact (hall r'.code (mem_candidateCodes.mpr ⟨hne, r', hr', rfl⟩)).symm
  · intro h c hone
    obtain ⟨hmem, hall⟩ := candidateCodes_eq_singleton.mp hone
    obtain ⟨hne, v, hv, rfl⟩ := mem_candidateCodes.mp hmem
    have hsame {r : MSClient} (hr : r ∈ vs) (hrc : r.code ≠ []) : r.code = v.code :=
      hall _ (mem_candidateCodes.mpr ⟨hrc, r, hr, rfl⟩)
    rcases h with hnone | ⟨r, hr, r', hr', hrc, hrc', hdiff⟩ | ⟨⟨r, hr, hrc⟩, hshown⟩
    · exact absurd (hnone v hv) hne
    · exact absurd ((hsame hr hrc).trans (hsame hr' hrc').symm) hdiff
    · have hts {r : MSClient} (hr : r ∈ ts) (hrc : r.code ≠ []) : r.code = v.code := by
        obtain ⟨w, hw, hwc⟩ := hshown r hr hrc
        rw [← hwc]
        exact hsame hw (hwc ▸ hrc)
      refine candidateCodes_eq_singleton.mpr ⟨mem_candidateCodes.mpr ⟨hne, r, hr, hts hr hrc⟩, ?_⟩
      intro c' hc'
      obtain ⟨hne', r', hr', rfl⟩ := mem_candidateCodes.mp hc'
      exact hts hr' hne'

theorem resolve_unambiguous (hlen : 9 ≤ (normPhone U phone).length) :
    ((resolveClientByPhone U orden tabla phone).historyAllowed = true →
      ∃ c, (resolveClientByPhone U orden tabla phone).code = some c ∧
        candidateCodes (decisivas U (normPhone U phone) tabla) = [c]) ↔
      ∀ c, candidateCodes (decisivas U (normPhone U phone)
          (candidatos orden tabla (normPhone U phone))) = [c] →
        candidateCodes (decisivas U (normPhone U phone) tabla) = [c] := by
  obtain ⟨kind, hres⟩ := resolve_eq orden tabla hlen
  rw [hres]
  constructor
  · intro h c hone
    obtain ⟨hallowed, hcode⟩ := (pickIdentity_code kind).mpr hone
    obtain ⟨c', hc', hcodes⟩ := h hallowed
    obtain rfl : c = c' := Option.some.inj (hcode.symm.trans hc')
    exact hcodes
  · intro h hallowed
    obtain ⟨hany, -⟩ := Bool.and_eq_true_iff.mp hallowed
    obtain ⟨c, hcode⟩ := Option.isSome_iff_exists.mp (Option.isSome_of_any hany)
    exact ⟨c, hcode, h c ((pickIdentity_code kind).mp ⟨hallowed, hcode⟩)⟩

/-- The identity can be relied on exactly when neither the punctuation nor the cap hides a
client; a phone of fewer than nine digits is not looked up. -/
theorem identitySound_iff :
    IdentitySound U orden tabla phone ↔
      (9 ≤ (normPhone U phone).length → NadieOculto U orden tabla (normPhone U phone)) := by
  by_cases hlen : 9 ≤ (normPhone U phone).length
  · constructor
    · intro h _
      refine ⟨fun r hr hc => enConsulta_iff.mp (h.superset hlen r hr hc), ?_⟩
      exact unambiguous_iff.mp ((resolve_unambiguous hlen).mp h.unambiguous)
    · intro h
      refine ⟨fun _ r hr hc => enConsulta_iff.mpr ((h hlen).seguidas r hr hc), ?_⟩
      exact (resolve_unambiguous hlen).mpr (unambiguous_iff.mpr (h hlen).visibles)
  · have hres : resolveClientByPhone U orden tabla phone = {} := if_pos (Nat.not_le.mp hlen)
    refine ⟨fun _ h => absurd h hlen, fun _ => ⟨fun h => absurd h hlen, fun h => ?_⟩⟩
    rw [hres] at h
    cases h

/-- The order of the codes, as zero-padded codes have it. -/
def porCodigo (r r' : MSClient) : Bool :=
  r.codigoCliente < r'.codigoCliente ||
    (r.codigoCliente = r'.codigoCliente && r.codigoEmpresa ≤ r'.codigoEmpresa)

/-- Two clients share a phone, and one of them has it written with commas. -/
def conComas : List MSClient :=
  [{ codigoCliente := "000139", codigoEmpresa := 1, telefono := "600123456" },
    { codigoCliente := "000777", codigoEmpresa := 1, telefono := "600,123,456" }]

/-- The server does not see the second client: the first one's history is opened. -/
theorem comma_hides_client : ¬ IdentitySound .latin porCodigo conComas "34600123456" := by
  intro h
  have hres : (resolveClientByPhone .latin porCodigo conComas "34600123456").historyAllowed = true := by
    decide +kernel
  obtain ⟨c, -, hcodes⟩ := h.unambiguous hres
  have htwo : (candidateCodes (decisivas .latin (normPhone .latin "34600123456") conComas)).length = 2 := by
    decide
  rw [hcodes] at htwo
  cases htwo

end Chatlink.Identity
