import Chatlink.Agent.Resolver
import Chatlink.Lib.Lists

/-!
# Where the operations of the resolver come from

`Origen` lists every way an operation can be built: from a line of the cart, a live
option or a live conflict, from the row of a typed code, from a hit of the search for
the text of a request. `resolver_origen` is the inversion lemma of the resolver; what
is proved about whole turns uses it and never unfolds `resolver` again.
-/
namespace Chatlink.Agent

open Lists

variable {U : Unicode} {E : Entorno}

/-! ## Closed spaces -/

section Spaces

variable {α : Type} {espacio : Espacio α} {prods : List Producto}

theorem mem_of_porClave {k : Texto} {x : α} (h : porClave espacio k = some x) :
    ∃ t, (k, t, x) ∈ espacio := by
  obtain ⟨⟨k', t, y⟩, he, rfl⟩ := Option.map_eq_some_iff.mp h
  have hk : k' = k := by simpa using List.find?_some he
  subst hk
  exact ⟨t, List.mem_reverse.mp (List.mem_of_find?_eq_some he)⟩

/-- A text is only ever tied to an entry of its space. -/
theorem mem_of_ligar {texto : Texto} {x : α} (h : (ligar U texto espacio).unico = some x) :
    ∃ k t, (k, t, x) ∈ espacio := by
  unfold ligar at h
  split at h
  · simp at h
  · split at h
    · exact ⟨_, mem_of_porClave h⟩
    · simp at h

theorem mem_opcionesSpace {k t : Texto} {i : ℕ} {o : Opcion}
    (h : (k, t, i, o) ∈ opcionesSpace prods) :
    ∃ p, prods[i]? = some p ∧ o ∈ p.opciones := by
  obtain ⟨⟨p, j⟩, hp, ho⟩ := List.mem_flatMap.mp h
  obtain ⟨o', ho', heq⟩ := List.mem_map.mp ho
  obtain ⟨-, -, rfl, rfl⟩ : o'.code = k ∧ _ = t ∧ j = i ∧ o' = o := by simpa using heq
  exact ⟨p, List.mk_mem_zipIdx_iff_getElem?.mp hp, ho'⟩

theorem mem_itemSpace {k t : Texto} {i : ℕ} (h : (k, t, i) ∈ itemSpace prods) :
    ∃ p, prods[i]? = some p := by
  obtain ⟨⟨p, j⟩, hp, heq⟩ := List.mem_map.mp h
  obtain ⟨-, -, rfl⟩ : p.texto = k ∧ p.texto = t ∧ j = i := by simpa using heq
  exact ⟨p, List.mk_mem_zipIdx_iff_getElem?.mp hp⟩

theorem textoDe_eq {i : ℕ} {p : Producto} (h : prods[i]? = some p) : textoDe prods i = p.texto := by
  simp [textoDe, h]

end Spaces

/-! ## Quantities of the open products -/

/-- The product `p'` is `p`, up to a quantity that an act with `P` carries. -/
def Recuenta (P : Acto → Prop) (p p' : Producto) : Prop :=
  ∃ q, p' = { p with qty := q } ∧
    (q = p.qty ∨ ∃ a v, P a ∧ a.cantidad.valor = some v ∧ q = some v)

namespace Recuenta

variable {P : Acto → Prop} {p q r : Producto}

theorem refl (P : Acto → Prop) (p : Producto) : Recuenta P p p := ⟨p.qty, rfl, Or.inl rfl⟩

theorem trans (h : Recuenta P p q) (k : Recuenta P q r) : Recuenta P p r := by
  obtain ⟨x, rfl, hx⟩ := h
  obtain ⟨y, rfl, hy⟩ := k
  refine ⟨y, rfl, ?_⟩
  rcases hy with rfl | hy
  · exact hx
  · exact Or.inr hy

theorem mono {Q : Acto → Prop} (hPQ : ∀ a, P a → Q a) (h : Recuenta P p q) : Recuenta Q p q := by
  obtain ⟨x, rfl, hx⟩ := h
  refine ⟨x, rfl, ?_⟩
  rcases hx with hx | ⟨a, v, ha, hv, hx⟩
  · exact Or.inl hx
  · exact Or.inr ⟨a, v, hPQ a ha, hv, hx⟩

theorem texto (h : Recuenta P p q) : q.texto = p.texto := by
  obtain ⟨x, rfl, -⟩ := h
  rfl

end Recuenta

/-- Products counted again, position by position. -/
abbrev Recontados (P : Acto → Prop) := List.Forall₂ (Recuenta P)

section Recontados

variable {P : Acto → Prop} {ps qs rs : List Producto}

theorem recontados_refl (P : Acto → Prop) (ps : List Producto) : Recontados P ps ps :=
  List.forall₂_same.mpr fun p _ => Recuenta.refl P p

theorem recontados_trans (h : Recontados P ps qs) (k : Recontados P qs rs) :
    Recontados P ps rs := by
  induction h generalizing rs with
  | nil =>
    cases k
    exact List.Forall₂.nil
  | cons h _ ih =>
    cases k with
    | cons k k' => exact List.Forall₂.cons (h.trans k) (ih k')

theorem recontados_ponItemQty {a : Acto} (ha : P a) (ps : List Producto) (i : ℕ) :
    Recontados P ps (ponItemQty ps i a.cantidad.valor) := by
  unfold ponItemQty
  split
  · exact recontados_refl P ps
  · next v hv =>
    apply forall₂_modify (Recuenta.refl P)
    intro p
    exact ⟨some v, rfl, Or.inr ⟨a, v, ha, hv, rfl⟩⟩

theorem recontados_get {i : ℕ} {q : Producto} (h : Recontados P ps qs) (hq : qs[i]? = some q) :
    ∃ p, ps[i]? = some p ∧ Recuenta P p q := by
  induction h generalizing i with
  | nil => simp at hq
  | cons hp _ ih =>
    cases i with
    | zero =>
      obtain rfl : _ = q := by simpa using hq
      exact ⟨_, rfl, hp⟩
    | succ i => exact ih (by simpa using hq)

theorem recontados_get_left {i : ℕ} {p : Producto} (h : Recontados P ps qs)
    (hp : ps[i]? = some p) : ∃ q, qs[i]? = some q := by
  obtain ⟨hi, -⟩ := List.getElem?_eq_some_iff.mp hp
  rw [h.length_eq] at hi
  exact ⟨qs[i], List.getElem?_eq_getElem hi⟩

theorem recontados_mem {q : Producto} (h : Recontados P ps qs) (hq : q ∈ qs) :
    ∃ p ∈ ps, Recuenta P p q := by
  obtain ⟨i, hi⟩ := List.mem_iff_getElem?.mp hq
  obtain ⟨p, hp, hpq⟩ := recontados_get h hi
  exact ⟨p, List.mem_of_getElem? hp, hpq⟩

end Recontados

/-! ## Requests -/

section Requests

variable {P : Acto → Prop}

/-- What the picks by code do: they count products again, pick live options, and leave
the requests that name none. -/
theorem eligePorCodigo_spec (espacio : Espacio (ℕ × Opcion)) {as : List Acto}
    (has : ∀ a ∈ as, P a) (ps : List Producto) :
    Recontados P ps (eligePorCodigo U espacio ps as).1 ∧
      (∀ op ∈ (eligePorCodigo U espacio ps as).2.1, ∃ k t i o qs, (k, t, i, o) ∈ espacio ∧
        Recontados P ps qs ∧ op = opElige (textoDe qs i) o) ∧
      (∀ a ∈ (eligePorCodigo U espacio ps as).2.2, P a ∧
        espacio.find? (fun e => (codesInText U a.productoTexto).contains e.1) = none) := by
  induction as generalizing ps with
  | nil => exact ⟨recontados_refl P ps, by simp [eligePorCodigo], by simp [eligePorCodigo]⟩
  | cons a as ih =>
    have ha : P a := has a List.mem_cons_self
    have has' : ∀ b ∈ as, P b := fun b hb => has b (List.mem_cons_of_mem a hb)
    cases hf : espacio.find? fun e => (codesInText U a.productoTexto).contains e.1 with
    | some e =>
      obtain ⟨k, t, i, o⟩ := e
      have hpon := recontados_ponItemQty (P := P) ha ps i
      obtain ⟨h1, h2, h3⟩ := ih has' (ponItemQty ps i a.cantidad.valor)
      simp only [eligePorCodigo, hf]
      refine ⟨recontados_trans hpon h1, ?_, h3⟩
      intro op hop
      rcases List.mem_cons.mp hop with rfl | hop
      · exact ⟨k, t, i, o, ps, List.mem_of_find?_eq_some hf, recontados_refl P ps, rfl⟩
      · obtain ⟨k', t', i', o', qs, he, hqs, rfl⟩ := h2 op hop
        exact ⟨k', t', i', o', qs, he, recontados_trans hpon hqs, rfl⟩
    | none =>
      obtain ⟨h1, h2, h3⟩ := ih has' ps
      simp only [eligePorCodigo, hf]
      refine ⟨h1, h2, ?_⟩
      intro b hb
      rcases List.mem_cons.mp hb with rfl | hb
      · exact ⟨ha, hf⟩
      · exact h3 b hb

/-- The requests after the tying: each one with `P`, tied to a product that exists. -/
theorem enriquece_spec {as : List Acto} (has : ∀ a ∈ as, P a) (ps : List Producto) :
    Recontados P ps (enriquece U ps as).1 ∧
      ∀ r ∈ (enriquece U ps as).2, P r.acto ∧ ∀ i, r.item = some i → ∃ p, ps[i]? = some p := by
  induction as generalizing ps with
  | nil => exact ⟨recontados_refl P ps, by simp [enriquece]⟩
  | cons a as ih =>
    have ha : P a := has a List.mem_cons_self
    have has' : ∀ b ∈ as, P b := fun b hb => has b (List.mem_cons_of_mem a hb)
    cases hl : (ligar U a.productoTexto (itemSpace ps)).unico with
    | some i =>
      have hpon := recontados_ponItemQty (P := P) ha ps i
      obtain ⟨h1, h2⟩ := ih has' (ponItemQty ps i a.cantidad.valor)
      simp only [enriquece, hl]
      refine ⟨recontados_trans hpon h1, ?_⟩
      intro r hr
      rcases List.mem_cons.mp hr with rfl | hr
      · obtain ⟨k, t, hmem⟩ := mem_of_ligar hl
        refine ⟨ha, ?_⟩
        intro j hj
        obtain rfl : i = j := by simpa using hj
        exact mem_itemSpace hmem
      · refine ⟨(h2 r hr).1, ?_⟩
        intro j hj
        obtain ⟨p, hp⟩ := (h2 r hr).2 j hj
        obtain ⟨q, hq, -⟩ := recontados_get hpon hp
        exact ⟨q, hq⟩
    | none =>
      obtain ⟨h1, h2⟩ := ih has' ps
      simp only [enriquece, hl]
      refine ⟨h1, ?_⟩
      intro r hr
      rcases List.mem_cons.mp hr with rfl | hr
      · exact ⟨ha, by simp⟩
      · exact h2 r hr

theorem mem_asigna {α : Type} {k : Texto} {v : α} {d : List (Texto × α)} {x : Texto × α}
    (h : x ∈ asigna k v d) : x = (k, v) ∨ x ∈ d := by
  induction d with
  | nil => exact Or.inl (List.mem_singleton.mp h)
  | cons y d ih =>
    obtain ⟨k', v'⟩ := y
    unfold asigna at h
    split at h
    · next hk =>
      rcases List.mem_cons.mp h with rfl | h
      · exact Or.inl (by rw [hk])
      · exact Or.inr (List.mem_cons_of_mem _ h)
    · rcases List.mem_cons.mp h with rfl | h
      · exact Or.inr List.mem_cons_self
      · rcases ih h with h | h
        · exact Or.inl h
        · exact Or.inr (List.mem_cons_of_mem _ h)

theorem separaCodigos_typed {ps : List Peticion} {c : Texto} {p : Peticion}
    (h : (c, p) ∈ (separaCodigos U ps).1) : p ∈ ps ∧ codigoTecleado U p.acto = some c := by
  unfold separaCodigos at h
  revert c p
  apply foldl_keeps (P := fun d : List (Texto × Peticion) => ∀ {c : Texto} {p : Peticion},
    (c, p) ∈ d → p ∈ ps ∧ codigoTecleado U p.acto = some c)
  · intro d q hq hd c p h
    split at h
    · next c' hc' =>
      rcases mem_asigna h with h | h
      · obtain ⟨rfl, rfl⟩ := Prod.mk.inj h
        exact ⟨hq, hc'⟩
      · exact hd h
    · exact hd h
  · intro c p h
    exact absurd h List.not_mem_nil

/-- The request goes to the search: it is no bare code, or there is no code lookup. -/
def buscada (U : Unicode) (E : Entorno) (a : Acto) : Bool :=
  (codigoTecleado U a).isNone || E.codeLookup.isNone

theorem codigoTecleado_mem {a : Acto} {c : Texto} (h : codigoTecleado U a = some c) :
    c ∈ codesInText U a.productoTexto ∨ c ∈ codesInText U a.evidencia := by
  unfold codigoTecleado at h
  dsimp only at h
  split at h
  · have hmem := List.mem_of_mem_head? h
    split at hmem
    · exact Or.inr hmem
    · exact Or.inl hmem
  · cases h

/-- What is left for the search. -/
theorem resuelveCodigos_resto {ps : List Peticion} {p : Peticion}
    (h : p ∈ (resuelveCodigos U E ps).2) : p ∈ ps ∧ buscada U E p.acto := by
  have hrest {q : Peticion} (hq : q ∈ (separaCodigos U ps).2) : q ∈ ps ∧ buscada U E q.acto := by
    obtain ⟨hmem, hnone⟩ := List.mem_filter.mp hq
    exact ⟨hmem, by simp only [buscada, hnone, Bool.true_or]⟩
  unfold resuelveCodigos at h
  split at h
  next typed conTexto hsep =>
  have h1 : (separaCodigos U ps).1 = typed := by rw [hsep]
  have h2 : (separaCodigos U ps).2 = conTexto := by rw [hsep]
  subst h1 h2
  split at h
  · exact hrest h
  · next hnone =>
    rcases List.mem_append.mp h with h | h
    · exact hrest h
    · obtain ⟨⟨c, q⟩, hq, rfl⟩ := List.mem_map.mp h
      exact ⟨(separaCodigos_typed hq).1, by simp [buscada, hnone]⟩

/-- An operation of a typed code. -/
theorem resuelveCodigos_ops {ps : List Peticion} {op : Op}
    (h : op ∈ (resuelveCodigos U E ps).1) :
    (∃ c, op = .codigoNoExiste c) ∨
      ∃ p ∈ ps, ∃ c lookup codes row, codigoTecleado U p.acto = some c ∧
        E.codeLookup = some lookup ∧ lookup codes c = some row ∧
        op = .add (Texto.orElse row.code c) row.name row.brand p.acto.cantidad.valor
          "codigo_cliente" := by
  unfold resuelveCodigos at h
  split at h
  next typed conTexto hsep =>
  have h1 : (separaCodigos U ps).1 = typed := by rw [hsep]
  subst h1
  split at h
  · next lookup hlook =>
    obtain ⟨⟨c, p⟩, hp, rfl⟩ := List.mem_map.mp h
    obtain ⟨hmem, hc⟩ := separaCodigos_typed hp
    unfold opDeCodigo
    cases hrow : lookup ((separaCodigos U ps).1.map Prod.fst) c with
    | none => exact Or.inl ⟨c, rfl⟩
    | some row => exact Or.inr ⟨p, hmem, c, lookup, _, row, hc, hlook, hrow, rfl⟩
  · exact absurd h List.not_mem_nil

end Requests

/-! ## Candidates -/

theorem dominancia_subset (cands : List Opcion) : dominancia U cands ⊆ cands := by
  unfold dominancia
  dsimp only
  split
  · exact List.Subset.refl _
  · exact List.filter_subset_self cands

theorem dedup_subset (vistos : List Texto) (cands : List Opcion) : dedup vistos cands ⊆ cands := by
  induction cands generalizing vistos with
  | nil => exact List.Subset.refl _
  | cons c cs ih =>
    unfold dedup
    split
    · exact List.Subset.trans (ih vistos) (List.subset_cons_self c cs)
    · exact List.cons_subset_cons c (ih _)

theorem mem_of_masNuevo {g : List Opcion} {c : Opcion} (h : masNuevo g = some c) : c ∈ g := by
  cases g with
  | nil => simp [masNuevo] at h
  | cons d g =>
    obtain rfl := Option.some.inj h
    apply foldl_keeps (P := fun best : Opcion => best ∈ d :: g)
    · intro best x hx hbest
      split
      · exact List.mem_cons_of_mem d hx
      · exact hbest
    · exact List.mem_cons_self

theorem colapsarGemelos_subset (cands : List Opcion) : colapsarGemelos U cands ⊆ cands := by
  intro c hc
  obtain ⟨k, -, hk⟩ := List.mem_filterMap.mp hc
  exact (List.mem_filter.mp (mem_of_masNuevo hk)).1

theorem poda_subset (p : Opcion → Bool) (cands : List Opcion) : poda p cands ⊆ cands := by
  unfold poda
  dsimp only
  split
  · exact List.Subset.refl _
  · exact List.filter_subset_self cands

/-- The option is a hit of the search for `q`, and has a code. -/
def Opcion.Hallada (E : Entorno) (qs : List Texto) (q : Texto) (o : Opcion) : Prop :=
  o.code ≠ [] ∧ ∃ h ∈ E.search qs q, o.code = h.codigoArticulo

/-- Every candidate is a hit of the search with a code that was not rejected. -/
theorem hit_of_mem_candidatos {texto : Texto} {rechazados : List Texto} {hits : List Hit}
    {c : Opcion} (h : c ∈ candidatos U texto rechazados hits) :
    c.code ≠ [] ∧ c.code ∉ rechazados ∧ ∃ x ∈ hits, c = hitOpt x := by
  unfold candidatos at h
  dsimp only at h
  generalize hfull : (if (hits.filter Hit.coversQuery).isEmpty then hits
    else hits.filter Hit.coversQuery) = vistos at h
  have hvistos : vistos ⊆ hits := by
    rw [← hfull]
    split
    · exact List.Subset.refl _
    · exact List.filter_subset_self hits
  generalize hbase : (dedup [] (dominancia U (vistos.map hitOpt))).filter
    (fun c => !c.code.isEmpty && !rechazados.contains c.code) = base at h
  have hc : c ∈ base := by
    revert h
    generalize hcol : (if base.any fun c => (codesInText U texto).contains c.code then base
      else colapsarGemelos U base) = col
    have hcol' : col ⊆ base := by
      rw [← hcol]
      split
      · exact List.Subset.refl _
      · exact colapsarGemelos_subset base
    intro h
    split at h <;> split at h
    · exact hcol' h
    · exact hcol' (poda_subset _ _ h)
    · exact hcol' (poda_subset _ _ h)
    · exact hcol' (poda_subset _ _ (poda_subset _ _ h))
  rw [← hbase] at hc
  obtain ⟨hded, hne⟩ := List.mem_filter.mp hc
  obtain ⟨hcode, hlibre⟩ := Bool.and_eq_true_iff.mp hne
  refine ⟨by simpa using hcode, by simpa using hlibre, ?_⟩
  obtain ⟨x, hx, rfl⟩ := List.mem_map.mp (dominancia_subset _ (dedup_subset _ _ hded))
  exact ⟨x, hvistos hx, rfl⟩

/-- Naming the options by what sets them apart leaves their codes. -/
theorem code_of_mem_distintivos {opciones : List Opcion} {o : Opcion}
    (h : o ∈ (distintivos U opciones).1) : ∃ c ∈ opciones, o.code = c.code := by
  unfold distintivos at h
  split at h
  · exact ⟨o, h, rfl⟩
  · dsimp only at h
    split at h
    · exact ⟨o, h, rfl⟩
    · obtain ⟨c, hc, rfl⟩ := List.mem_map.mp h
      exact ⟨c, hc, rfl⟩

/-! ## The origin of an operation -/

/-- The requests that the acts leave for the retrieval. -/
def peticiones (U : Unicode) (e : Estado) (actos : List Acto) : List Acto :=
  actos.flatMap fun a => match resuelveActo U e a with
    | .ok r => r.2
    | .error _ => []

/-- The request picks a live option by its code. -/
def eligeViva (U : Unicode) (e : Estado) (a : Acto) : Bool :=
  ((opcionesSpace e.productosAbiertos).find? fun x =>
    (codesInText U a.productoTexto).contains x.1).isSome

/-- The requests whose text is looked up. -/
def consultas (U : Unicode) (e : Estado) (actos : List Acto) : List Acto :=
  (peticiones U e actos).filter fun a => !eligeViva U e a

/-- A request is a `pedir`, or an `elegir` that names a code and answers no conflict. -/
theorem peticiones_mem {U : Unicode} {e : Estado} {actos : List Acto} {b : Acto}
    (h : b ∈ peticiones U e actos) : ∃ a ∈ actos, (a.tipo = .pedir ∧ b = a) ∨
      (a.tipo = .elegir ∧ respuestaConflicto U e.conflictos a.objetivoTexto = .ok none ∧
        b = { tipo := .pedir, evidencia := a.evidencia, productoTexto := a.objetivoTexto,
              cantidad := a.cantidad }) := by
  obtain ⟨a, ha, hb⟩ := List.mem_flatMap.mp h
  refine ⟨a, ha, ?_⟩
  split at hb
  · next r hr =>
    unfold resuelveActo at hr
    dsimp only at hr
    cases ht : a.tipo with
    | pedir =>
      rw [ht] at hr
      obtain ⟨x, -, hr⟩ := bind_eq_ok hr
      cases x with
      | some op =>
        cases hr
        exact absurd hb List.not_mem_nil
      | none =>
        cases hr
        exact Or.inl ⟨rfl, List.mem_singleton.mp hb⟩
    | elegir =>
      rw [ht] at hr
      obtain ⟨x, hx, hr⟩ := bind_eq_ok hr
      cases x with
      | some op =>
        cases hr
        exact absurd hb List.not_mem_nil
      | none =>
        cases hr
        refine Or.inr ⟨rfl, hx, ?_⟩
        unfold resuelveElegir at hb
        dsimp only at hb
        split at hb
        · split at hb <;> exact absurd hb List.not_mem_nil
        · split at hb
          · exact absurd hb List.not_mem_nil
          · exact List.mem_singleton.mp hb
    | _ =>
      rw [ht] at hr
      cases hr
      exact absurd hb List.not_mem_nil
  · exact absurd hb List.not_mem_nil

/-- The text an act may answer a quantity conflict with. -/
def Acto.respuesta? (a : Acto) : Option Texto :=
  match a.tipo with
  | .pedir => some a.productoTexto
  | .elegir => some a.objetivoTexto
  | _ => none

/-- Operations that carry no code of a line and no quantity. -/
def Op.sinDatos : Op → Bool
  | .codigoNoExiste _ => true
  | .rechazo _ => true
  | .referenciaAmbigua _ _ => true
  | .cerrar => true
  | .confirmar => true
  | .negar => true
  | .otro _ => true
  | _ => false

/-- Every way the resolver builds an operation. `prods` are the open products counted
again, `qs` are the queries of the search. -/
inductive Origen (U : Unicode) (E : Entorno) (e : Estado) (actos : List Acto)
    (prods : List Producto) (qs : List Texto) : Op → Prop
  | responde {a : Acto} {t : Texto} {n : ℤ} {c : Conflicto} (ha : a ∈ actos)
      (ht : a.respuesta? = some t) (hd : U.isdigit (Texto.strip t))
      (hn : U.intOf (Texto.strip t) = some n) (hc : c ∈ e.conflictos) (hq : n ∈ c.opcionesQty) :
      Origen U E e actos prods qs (.eligeQty c.code n)
  | modifica {a : Acto} {l : Linea} (ha : a ∈ actos) (ht : a.tipo = .modificar)
      (hl : l ∈ e.cart) :
      Origen U E e actos prods qs (.modificar l.code l.name a.cantidad.modo a.cantidad.valor
        a.eliminarConNumeral a.cantidad.valor)
  | opcionViva {p : Producto} {o : Opcion} (hp : p ∈ e.productosAbiertos) (ho : o ∈ p.opciones) :
      Origen U E e actos prods qs (opElige p.texto o)
  | tecleado {a : Acto} {c : Texto} {lookup : List Texto → Texto → Option Articulo}
      {codes : List Texto} {row : Articulo} (ha : a ∈ consultas U e actos)
      (hc : codigoTecleado U a = some c) (hl : E.codeLookup = some lookup)
      (hr : lookup codes c = some row) :
      Origen U E e actos prods qs (.add (Texto.orElse row.code c) row.name row.brand
        a.cantidad.valor "codigo_cliente")
  | hallado {a : Acto} {o : Opcion} (ha : a ∈ consultas U e actos) (hs : buscada U E a)
      (hq : a.productoTexto ∈ qs) (ho : o.Hallada E qs a.productoTexto) :
      Origen U E e actos prods qs (.add o.code o.name o.brand a.cantidad.valor o.fuente)
  | halladoPara {a : Acto} {o : Opcion} {p : Producto} (ha : a ∈ consultas U e actos)
      (hs : buscada U E a) (hq : a.productoTexto ∈ qs) (ho : o.Hallada E qs a.productoTexto)
      (hp : p ∈ e.productosAbiertos) : Origen U E e actos prods qs (opElige p.texto o)
  | ofrece {a : Acto} {item : Option ℕ} {ops : List Opcion} {ind : Bool}
      (ha : a ∈ consultas U e actos) (hs : buscada U E a) (hq : a.productoTexto ∈ qs)
      (hops : ∀ o ∈ ops, o.Hallada E qs a.productoTexto) :
      Origen U E e actos prods qs
        (.opciones a.productoTexto (Peticion.qty prods ⟨a, item⟩) ops ind)
  | sinCandidatos {a : Acto} {item : Option ℕ} (ha : a ∈ consultas U e actos) :
      Origen U E e actos prods qs (.sinCandidatos a.productoTexto (Peticion.qty prods ⟨a, item⟩))
  | global {a : Acto} (ha : a ∈ actos) (ht : a.tipo = .cantidadGlobal) :
      Origen U E e actos prods qs (.cantidadGlobal a.valor)
  | repite {a : Acto} (ha : a ∈ actos) (ht : a.tipo = .repetirUltimo) :
      Origen U E e actos prods qs
        (.repetirUltimo (if a.cantidad.modo = .total then a.cantidad.valor else none))
  | dice {op : Op} (h : op.sinDatos) : Origen U E e actos prods qs op

section Origins

variable {e : Estado} {actos : List Acto} {prods : List Producto} {qs : List Texto}

theorem respuestaConflicto_origen {a : Acto} {t : Texto} {op : Op} (ha : a ∈ actos)
    (ht : a.respuesta? = some t) (h : respuestaConflicto U e.conflictos t = .ok (some op)) :
    Origen U E e actos prods qs op := by
  unfold respuestaConflicto at h
  dsimp only at h
  split at h
  · next hd =>
    split at h
    · cases h
    · next n hn =>
      obtain ⟨c, hc, rfl⟩ := Option.map_eq_some_iff.mp (Except.ok.inj h)
      have hq : n ∈ c.opcionesQty := by simpa using List.find?_some hc
      have hdig := (Bool.and_eq_true_iff.mp hd).1
      exact .responde ha ht hdig hn (List.mem_of_find?_eq_some hc) hq
  · cases h

theorem resuelveModificar_origen {a : Acto} (ha : a ∈ actos) (ht : a.tipo = .modificar) :
    Origen U E e actos prods qs (resuelveModificar U e a) := by
  unfold resuelveModificar
  dsimp only
  split
  · exact .dice rfl
  · next l hl =>
    refine .modifica ha ht ?_
    split at hl
    · next hcart =>
      obtain rfl := Option.some.inj hl
      rw [hcart]
      exact List.mem_singleton.mpr rfl
    · obtain ⟨k, t, hmem⟩ := mem_of_ligar hl
      obtain ⟨l', hl', heq⟩ := List.mem_map.mp hmem
      obtain ⟨-, -, rfl⟩ : l'.code = k ∧ _ = t ∧ l' = l := by simpa using heq
      exact hl'

theorem opcionViva_of_space {k t : Texto} {i : ℕ} {o : Opcion}
    (h : (k, t, i, o) ∈ opcionesSpace e.productosAbiertos) :
    Origen U E e actos prods qs (opElige (textoDe e.productosAbiertos i) o) := by
  obtain ⟨p, hp, ho⟩ := mem_opcionesSpace h
  rw [textoDe_eq hp]
  exact .opcionViva (List.mem_of_getElem? hp) ho

theorem resuelveElegir_origen {a : Acto} :
    ∀ op ∈ (resuelveElegir U e.productosAbiertos a).1, Origen U E e actos prods qs op := by
  unfold resuelveElegir
  dsimp only
  split
  · split
    · next i o hl =>
      obtain ⟨k, t, hmem⟩ := mem_of_ligar hl
      simpa using opcionViva_of_space hmem
    · simpa using Origen.dice rfl
  · split
    · next i o hl => simpa using opcionViva_of_space (List.mem_of_find?_eq_some hl)
    · simp

/-- The operations of one act have an origin. -/
theorem resuelveActo_origen {a : Acto} {r : List Op × List Acto} (ha : a ∈ actos)
    (h : resuelveActo U e a = .ok r) : ∀ op ∈ r.1, Origen U E e actos prods qs op := by
  unfold resuelveActo at h
  dsimp only at h
  cases ht : a.tipo with
  | pedir =>
    rw [ht] at h
    obtain ⟨x, hx, h⟩ := bind_eq_ok h
    have hres : a.respuesta? = some a.productoTexto := by simp [Acto.respuesta?, ht]
    cases x with
    | some op =>
      cases h
      simpa using respuestaConflicto_origen ha hres hx
    | none =>
      cases h
      simp
  | elegir =>
    rw [ht] at h
    obtain ⟨x, hx, h⟩ := bind_eq_ok h
    have hres : a.respuesta? = some a.objetivoTexto := by simp [Acto.respuesta?, ht]
    cases x with
    | some op =>
      cases h
      simpa using respuestaConflicto_origen ha hres hx
    | none =>
      cases h
      exact resuelveElegir_origen
  | modificar =>
    rw [ht] at h
    cases h
    simpa using resuelveModificar_origen ha ht
  | cantidadGlobal =>
    rw [ht] at h
    cases h
    simpa using Origen.global ha ht
  | repetirUltimo =>
    rw [ht] at h
    cases h
    simpa using Origen.repite ha ht
  | _ =>
    rw [ht] at h
    cases h
    simpa using Origen.dice rfl

/-- Taking a hit for a request: a new line, or a pick for the product it adds to. -/
theorem opToma_origen {P : Acto → Prop} {p : Peticion} {o : Opcion}
    (hp : p.acto ∈ consultas U e actos) (hrec : Recontados P e.productosAbiertos prods)
    (hitem : ∀ i, p.item = some i → ∃ q, prods[i]? = some q) (hs : buscada U E p.acto)
    (hq : p.acto.productoTexto ∈ qs)
    (ho : o.Hallada E qs p.acto.productoTexto) :
    Origen U E e actos prods qs (opToma prods p.item o (p.qty prods)) := by
  unfold opToma
  split
  · next i hi =>
    obtain ⟨x, hx⟩ := hitem i hi
    obtain ⟨x', hx', hrx⟩ := recontados_get hrec hx
    rw [textoDe_eq hx, hrx.texto]
    exact .halladoPara hp hs hq ho (List.mem_of_getElem? hx')
  · next hnone =>
    have hqty : p.qty prods = p.acto.cantidad.valor := by
      cases hv : p.acto.cantidad.valor <;> simp [Peticion.qty, hnone, hv]
    rw [hqty]
    exact .hallado hp hs hq ho

/-- A request after the search, under any verdict of the match model. -/
theorem busca_origen {P : Acto → Prop} {p : Peticion} (v : Option Veredicto)
    (hp : p.acto ∈ consultas U e actos) (hrec : Recontados P e.productosAbiertos prods)
    (hitem : ∀ i, p.item = some i → ∃ q, prods[i]? = some q) (hs : buscada U E p.acto)
    (hq : p.acto.productoTexto ∈ qs) :
    Origen U E e actos prods qs (opDeVeredicto prods v
      (busca U prods (E.search qs p.acto.productoTexto) p)) := by
  unfold busca
  dsimp only
  generalize hcands : candidatos U p.acto.productoTexto _ (E.search qs p.acto.productoTexto) = cands
  have hhit {c : Opcion} (hc : c ∈ cands) : c.Hallada E qs p.acto.productoTexto := by
    rw [← hcands] at hc
    obtain ⟨hne, -, h, hh, rfl⟩ := hit_of_mem_candidatos hc
    exact ⟨hne, h, hh, rfl⟩
  have htoma {c : Opcion} (hc : c.Hallada E qs p.acto.productoTexto) :
      Origen U E e actos prods qs (opToma prods p.item c (p.qty prods)) :=
    opToma_origen hp hrec hitem hs hq hc
  split
  · exact .sinCandidatos hp
  · next c cs =>
    split
    · next exact hex => exact htoma (hhit (List.mem_of_find?_eq_some hex))
    · split
      · exact htoma (hhit List.mem_cons_self)
      · have hops : ∀ o ∈ (distintivos U ((c :: cs).take maxOpciones)).1,
            o.Hallada E qs p.acto.productoTexto := by
          intro o ho
          obtain ⟨d, hd, hcode⟩ := code_of_mem_distintivos ho
          obtain ⟨hne, h, hh, hdh⟩ := hhit (List.mem_of_mem_take hd)
          exact ⟨hcode ▸ hne, h, hh, hcode.trans hdh⟩
        split
        · exact .ofrece hp hs hq hops
        · simp only [opDeVeredicto]
          split
          · next o ho =>
            have hmem : o ∈ (distintivos U ((c :: cs).take maxOpciones)).1 := by
              obtain ⟨w, -, hw⟩ := Option.bind_eq_some_iff.mp ho
              split at hw
              · split at hw
                · exact List.mem_of_getElem? hw
                · cases hw
              · cases hw
            exact htoma (hops o hmem)
          · split
            · exact .sinCandidatos hp
            · exact .ofrece hp hs hq hops

theorem mem_casa {hs : List Hallazgo} {op : Op} (h : op ∈ casa E prods hs) :
    ∃ x ∈ hs, ∃ v, op = opDeVeredicto prods v x := by
  unfold casa at h
  dsimp only at h
  rcases List.mem_append.mp h with h | h
  · obtain ⟨x, hx, hop⟩ := List.mem_filterMap.mp h
    cases x with
    | op o => exact ⟨.op o, hx, none, (Option.some.inj hop).symm⟩
    | ambiguo texto qty opciones item => cases hop
  · obtain ⟨⟨x, i⟩, hx, rfl⟩ := List.mem_map.mp h
    have hmem : x ∈ hs.filter fun h => h.op?.isNone :=
      List.mem_of_getElem? (List.mk_mem_zipIdx_iff_getElem?.mp hx)
    exact ⟨x, (List.mem_filter.mp hmem).1, _, rfl⟩

end Origins

/-- The inversion lemma of the resolver: it counts the open products again and every
operation it builds has an origin. -/
theorem resolver_origen {actos : List Acto} {e e' : Estado} {ops : List Op}
    (h : resolver U E actos e = .ok (ops, e')) :
    ∃ prods qs, Recontados (· ∈ peticiones U e actos) e.productosAbiertos prods ∧
      e' = { e with openItems := conProductos e.openItems prods } ∧
      ∀ op ∈ ops, Origen U E e actos prods qs op := by
  unfold resolver at h
  obtain ⟨rs, hrs, h⟩ := bind_eq_ok h
  have hpedir : ∀ a ∈ rs.flatMap Prod.snd, a ∈ peticiones U e actos := by
    intro a ha
    obtain ⟨r, hr, har⟩ := List.mem_flatMap.mp ha
    obtain ⟨b, hb, hok⟩ := exists_of_mapM_ok hrs hr
    exact List.mem_flatMap.mpr ⟨b, hb, by rw [hok]; exact har⟩
  -- the picks by code and the tying to open products
  obtain ⟨h1, h2, h3⟩ := eligePorCodigo_spec (U := U) (opcionesSpace e.productosAbiertos)
    hpedir e.productosAbiertos
  dsimp only at h
  generalize eligePorCodigo U (opcionesSpace e.productosAbiertos) e.productosAbiertos
    (rs.flatMap Prod.snd) = picks at h h1 h2 h3
  obtain ⟨ps1, ops2, pedir⟩ := picks
  have hcons : ∀ a ∈ pedir, a ∈ consultas U e actos := by
    intro a ha
    obtain ⟨hp, hf⟩ := h3 a ha
    exact List.mem_filter.mpr ⟨hp, by simp only [eligeViva, hf, Option.isSome_none, Bool.not_false]⟩
  obtain ⟨h4, h5⟩ := enriquece_spec (U := U) hcons ps1
  dsimp only at h h1 h2
  generalize enriquece U ps1 pedir = tied at h h4 h5
  obtain ⟨ps2, ps⟩ := tied
  dsimp only at h h4 h5
  have hrec := recontados_trans h1
    (h4.imp fun _ _ hr => hr.mono fun _ ha => (List.mem_filter.mp ha).1)
  cases hcod : resuelveCodigos U E ps with
  | mk ops3 conTexto =>
    rw [hcod] at h
    cases h
    refine ⟨ps2, conTexto.map fun p => p.acto.productoTexto, hrec, rfl, ?_⟩
    intro op hop
    simp only [List.mem_append] at hop
    rcases hop with ((hop | hop) | hop) | hop
    · obtain ⟨r, hr, hopr⟩ := List.mem_flatMap.mp hop
      obtain ⟨a, ha, hok⟩ := exists_of_mapM_ok hrs hr
      exact resuelveActo_origen ha hok op hopr
    · obtain ⟨k, t, i, o, qs', hmem, hqs, rfl⟩ := h2 op hop
      obtain ⟨p, hp, ho⟩ := mem_opcionesSpace hmem
      obtain ⟨q, hq⟩ := recontados_get_left hqs hp
      obtain ⟨p', hp', hrq⟩ := recontados_get hqs hq
      obtain rfl : p = p' := by simpa [hp] using hp'
      rw [textoDe_eq hq, hrq.texto]
      exact .opcionViva (List.mem_of_getElem? hp) ho
    · have hop' : op ∈ (resuelveCodigos U E ps).1 := by rw [hcod]; exact hop
      rcases resuelveCodigos_ops hop' with ⟨c, rfl⟩ | ⟨p, hp, c, lookup, codes, row, hc, hl, hr, rfl⟩
      · exact .dice rfl
      · exact .tecleado (h5 p hp).1 hc hl hr
    · obtain ⟨x, hx, v, rfl⟩ := mem_casa hop
      obtain ⟨p, hp, rfl⟩ := List.mem_map.mp hx
      obtain ⟨hp', hs⟩ := resuelveCodigos_resto (U := U) (E := E) (by rw [hcod]; exact hp)
      have hne : conTexto.isEmpty = false := by
        cases conTexto with
        | nil => exact absurd hp List.not_mem_nil
        | cons => rfl
      simp only [hne, Bool.false_eq_true, if_false]
      refine busca_origen v (h5 p hp').1 hrec ?_ hs (List.mem_map.mpr ⟨p, hp, rfl⟩)
      intro i hi
      obtain ⟨q, hq⟩ := (h5 p hp').2 i hi
      exact recontados_get_left h4 hq

/-! ## The state the resolver hands on -/

section State

variable {P : Acto → Prop}

theorem conProductos_view {β : Type*} {f : Item → Option β} (hf : ∀ p, f (.producto p) = none)
    (items : List Item) (ps : List Producto) :
    (conProductos items ps).filterMap f = items.filterMap f := by
  fun_induction conProductos items ps with
  | case1 p is q ps ih => simp [hf, ih]
  | case2 i is ps hne ih => cases hi : f i <;> simp [hi, ih]
  | case3 => rfl

theorem conProductos_productos {ps : List Producto} (items : List Item)
    (h : Recontados P (items.filterMap Item.producto?) ps) :
    (conProductos items ps).filterMap Item.producto? = ps := by
  induction items generalizing ps with
  | nil =>
    cases h
    rfl
  | cons i items ih =>
    cases i with
    | producto p =>
      cases h with
      | cons hp h => simpa [conProductos, Item.producto?] using ih h
    | revisar texto qty => exact (List.filterMap_cons_none rfl).trans (ih h)
    | conflicto c => exact (List.filterMap_cons_none rfl).trans (ih h)
    | siNo v => exact (List.filterMap_cons_none rfl).trans (ih h)

/-- A state whose open products were counted again: all else is as it was. -/
structure Recontado (e e' : Estado) (prods : List Producto) : Prop where
  cart : e'.cart = e.cart
  ultimo : e'.lastClosedCart = e.lastClosedCart
  productos : e'.productosAbiertos = prods
  conflictos : e'.conflictos = e.conflictos
  siNos : e'.siNos = e.siNos
  aRevisar : e'.aRevisar = e.aRevisar

theorem recontado {e : Estado} {prods : List Producto} (h : Recontados P e.productosAbiertos prods) :
    Recontado e { e with openItems := conProductos e.openItems prods } prods where
  cart := rfl
  ultimo := rfl
  productos := conProductos_productos e.openItems h
  conflictos := conProductos_view (fun _ => rfl) e.openItems prods
  siNos := conProductos_view (fun _ => rfl) e.openItems prods
  aRevisar := conProductos_view (fun _ => rfl) e.openItems prods

end State

end Chatlink.Agent
