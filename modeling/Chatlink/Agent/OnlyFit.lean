import Chatlink.Agent.History
import Chatlink.Agent.Candidates

/-!
# An automatic pick is the only fit

A request that one article remains for is noted without a question, so that article should be the
only one of the client's history that covers what he said. The resolver sees the first articles of
the history only, and of two that share a name the first: what is not seen is not counted.
-/
namespace Chatlink.Agent

open Lists

variable {U : Unicode}

/-! ## The articles that cover a request -/

/-- The article covers every word of the request. -/
def ProductRow.cubre (U : Unicode) (texto : Texto) (p : ProductRow) : Bool :=
  !(palabras U texto).isEmpty &&
    (palabras U texto).all fun t => covers t (tokenize U p.searchableText)

def Historial.cubren (U : Unicode) (h : Historial) (texto : Texto) : List ProductRow :=
  h.filas.filter (ProductRow.cubre U texto)

/-- Ordered more often, then more recently. -/
def ProductRow.masPedido (a b : ProductRow) : Prop :=
  b.veces < a.veces ∨ (a.veces = b.veces ∧ b.ultimaFecha.getD 0 ≤ a.ultimaFecha.getD 0)

instance (a b : ProductRow) : Decidable (a.masPedido b) := inferInstanceAs (Decidable (_ ∨ _))

/-- The articles the search hands on: the first of those on sale, and when none is on sale the
first of the others. -/
def Historial.mirados (U : Unicode) (h : Historial) (texto : Texto) : List ProductRow :=
  let enVenta := (h.cubren U texto).filter ProductRow.botVisible
  if (Texto.strip texto).isEmpty then []
  else if enVenta.isEmpty then (h.cubren U texto).take ragTopK
  else (enVenta.insertionSort ProductRow.masPedido).take ragTopK

/-- The match of an article that covers the request. -/
def ProductRow.pleno (U : Unicode) (texto : Texto) (p : ProductRow) : HistoryMatch :=
  { codigo := p.codigo, nombre := p.nombre, marca := p.marca, veces := p.veces,
    ultimaFecha := p.ultimaFecha, covered := palabras U texto, uncovered := [],
    headMatch := true, fullCoverage := true }

instance : IsTrans HistoryMatch HistoryMatch.antes :=
  ⟨fun a _ c h h' => (le_trans h h' : a.sortKey ≤ c.sortKey)⟩

instance : Std.Total HistoryMatch.antes := ⟨fun a b => le_total a.sortKey b.sortKey⟩

theorem antes_pleno {texto : Texto} {a b : ProductRow} :
    (a.pleno U texto).antes (b.pleno U texto) ↔ a.masPedido b := by
  unfold HistoryMatch.antes HistoryMatch.sortKey ProductRow.pleno ProductRow.masPedido
  dsimp only
  rw [← not_lt]
  simp only [List.cons_lt_cons_iff, lt_irrefl, true_and, false_or, and_false, or_false]
  omega

theorem cubre_iff {texto : Texto} {p : ProductRow} : p.cubre U texto ↔ palabras U texto ≠ [] ∧
    ∀ t ∈ palabras U texto, covers t (tokenize U p.searchableText) := by
  simp [ProductRow.cubre]

theorem historyMatch_of_cubre {texto : Texto} {p : ProductRow} (h : p.cubre U texto) :
    historyMatch U (palabras U texto) p = some (p.pleno U texto) := by
  obtain ⟨hne, hall⟩ := cubre_iff.mp h
  have hcovered : ((palabras U texto).filter fun t => covers t (tokenize U p.searchableText)) =
      palabras U texto := List.filter_eq_self.mpr hall
  have hrest : ((palabras U texto).filter fun t => !(palabras U texto).contains t) = [] := by
    simp
  unfold historyMatch ProductRow.pleno
  dsimp only
  rw [hcovered, hrest, if_neg (by simpa using hne)]
  cases hq : palabras U texto with
  | nil => exact absurd hq hne
  | cons t q =>
    rw [hq] at hall
    have hhead := hall t List.mem_cons_self
    simp [hhead]

theorem cubre_of_historyMatch {texto : Texto} {p : ProductRow} {m : HistoryMatch}
    (h : historyMatch U (palabras U texto) p = some m) (hm : m.fullCoverage) : p.cubre U texto := by
  unfold historyMatch at h
  dsimp only at h
  split at h
  · cases h
  · next hne =>
    obtain rfl := Option.some.inj h
    have hall := List.length_filter_eq_length_iff.mp (of_decide_eq_true hm)
    refine cubre_iff.mpr ⟨?_, hall⟩
    rintro hq
    simp [hq] at hne

/-- The full matches of some articles are those that cover the request. -/
theorem filterMap_historyMatch (texto : Texto) (l : List ProductRow) :
    (l.filterMap (historyMatch U (palabras U texto))).filter HistoryMatch.fullCoverage =
      (l.filter (ProductRow.cubre U texto)).map (ProductRow.pleno U texto) := by
  induction l with
  | nil => rfl
  | cons p l ih =>
    by_cases hp : p.cubre U texto
    · rw [List.filterMap_cons_some (historyMatch_of_cubre hp), List.filter_cons_of_pos rfl,
        List.filter_cons_of_pos hp, List.map_cons, ih]
    · rw [List.filter_cons_of_neg hp, ← ih]
      cases hm : historyMatch U (palabras U texto) p with
      | none => rw [List.filterMap_cons_none hm]
      | some m =>
        rw [List.filterMap_cons_some hm, List.filter_cons_of_neg]
        exact fun hfull => hp (cubre_of_historyMatch hm hfull)

/-! ## What the search hands on -/

/-- An article in the shape of a hit. -/
def ProductRow.hit (p : ProductRow) : Hit :=
  { codigoArticulo := p.codigo, descripcionArticulo := p.nombre, marcaProducto := p.marca,
    fuente := "pedidos", fechaAlta := [], coversQuery := true }

theorem map_hit_pleno (texto : Texto) (l : List ProductRow) (n : ℕ) :
    (((l.map (ProductRow.pleno U texto)).take n).take n).map historyHit =
      (l.take n).map ProductRow.hit := by
  rw [List.take_take, Nat.min_self, List.map_take, List.map_map, List.map_take]
  rfl

theorem filter_scored (texto : Texto) (l : List ProductRow) :
    ((l.filterMap (historyMatch U (palabras U texto))).insertionSort HistoryMatch.antes).filter
        HistoryMatch.fullCoverage =
      ((l.filter (ProductRow.cubre U texto)).insertionSort ProductRow.masPedido).map
        (ProductRow.pleno U texto) := by
  rw [filter_insertionSort, filterMap_historyMatch,
    List.map_insertionSort ProductRow.masPedido HistoryMatch.antes]
  exact fun a _ b _ => antes_pleno.symm

theorem filter_cubre_comm (h : Historial) (texto : Texto) (p : ProductRow → Bool) :
    (h.filas.filter p).filter (ProductRow.cubre U texto) = (h.cubren U texto).filter p := by
  unfold Historial.cubren
  rw [List.filter_filter, List.filter_filter]
  simp only [Bool.and_comm]

/-- With nothing on sale that covers the request, the hidden articles are all there are. -/
theorem filter_ocultos {h : Historial} {texto : Texto}
    (hnone : (h.cubren U texto).filter ProductRow.botVisible = []) :
    (h.cubren U texto).filter (fun p => !p.botVisible) = h.cubren U texto := by
  refine List.filter_eq_self.mpr fun p hp => ?_
  have hvis := List.filter_eq_nil_iff.mp hnone p hp
  simpa using hvis

/-- The hits that cover a request without an alias are the articles handed on. -/
theorem hits_matchHistory (h : Historial) {texto : Texto} (hne : (Texto.strip texto).isEmpty = false) :
    ((matchHistory U texto h.filas ragTopK).hits ragTopK = (h.mirados U texto).map ProductRow.hit) ∨
      (h.mirados U texto = [] ∧
        ∀ x ∈ (matchHistory U texto h.filas ragTopK).hits ragTopK, x.coversQuery = false) := by
  have hfull := filter_scored (U := U) texto (h.filas.filter ProductRow.botVisible)
  have hhidden := filterMap_historyMatch (U := U) texto (h.filas.filter fun p => !p.botVisible)
  rw [filter_cubre_comm] at hfull hhidden
  unfold matchHistory Historial.mirados
  dsimp only
  rw [hhidden, hfull, hne]
  generalize hscored : (h.filas.filter ProductRow.botVisible).filterMap
    (historyMatch U (palabras U texto)) = scored at hfull ⊢
  by_cases hq : palabras U texto = []
  · have hcubren : h.cubren U texto = [] := by
      refine List.filter_eq_nil_iff.mpr fun p _ => ?_
      simp [ProductRow.cubre, hq]
    simp [hq, hcubren, HistoryResolution.hits]
  rw [if_neg (by simpa using hq)]
  by_cases hventa : (h.cubren U texto).filter ProductRow.botVisible = []
  · rw [hventa, filter_ocultos hventa]
    cases hcubren : h.cubren U texto with
    | nil =>
      right
      refine ⟨rfl, fun x hx => ?_⟩
      by_cases hs : scored.isEmpty
      · rw [if_pos hs] at hx
        cases hx
      · rw [if_neg hs] at hx
        obtain ⟨m, -, rfl⟩ := List.mem_map.mp hx
        rfl
    | cons p l =>
      left
      by_cases hs : scored.isEmpty
      · rw [if_pos hs]
        exact map_hit_pleno texto (p :: l) ragTopK
      · rw [if_neg hs]
        exact map_hit_pleno texto (p :: l) ragTopK
  · left
    cases hsort : ((h.cubren U texto).filter ProductRow.botVisible).insertionSort
        ProductRow.masPedido with
    | nil =>
      have hperm := List.perm_insertionSort ProductRow.masPedido
        ((h.cubren U texto).filter ProductRow.botVisible)
      rw [hsort] at hperm
      exact absurd hperm.nil_eq.symm hventa
    | cons p l =>
      have hs : scored.isEmpty = false := by
        cases scored with
        | nil =>
          rw [hsort] at hfull
          cases hfull
        | cons m ms => rfl
      have hventa' : ((h.cubren U texto).filter ProductRow.botVisible).isEmpty = false := by
        simpa using hventa
      rw [hs, hventa']
      cases l with
      | nil => rfl
      | cons p' l => exact map_hit_pleno texto (p :: p' :: l) ragTopK

theorem mirados_subset (h : Historial) (texto : Texto) : h.mirados U texto ⊆ h.cubren U texto := by
  unfold Historial.mirados
  dsimp only
  split
  · exact List.nil_subset _
  · split
    · exact List.take_subset _ _
    · intro p hp
      have hsort := (List.mem_insertionSort _).mp (List.mem_of_mem_take hp)
      exact List.mem_of_mem_filter hsort

theorem nodup_cubren (h : Historial) (texto : Texto) :
    ((h.cubren U texto).map ProductRow.codigo).Nodup :=
  List.Nodup.sublist (List.Sublist.map _ List.filter_sublist) h.unicos

theorem nodup_mirados (h : Historial) (texto : Texto) :
    ((h.mirados U texto).map ProductRow.codigo).Nodup := by
  unfold Historial.mirados
  dsimp only
  split
  · exact List.nodup_nil
  · split
    · exact List.Nodup.sublist (List.Sublist.map _ (List.take_sublist _ _)) (nodup_cubren h texto)
    · refine List.Nodup.sublist (List.Sublist.map _ (List.take_sublist _ _)) ?_
      rw [((List.perm_insertionSort _ _).map _).nodup_iff]
      exact List.Nodup.sublist (List.Sublist.map _ List.filter_sublist) (nodup_cubren h texto)

theorem eq_of_codigo {h : Historial} {texto : Texto} {x y : ProductRow} (hx : x ∈ h.cubren U texto)
    (hy : y ∈ h.cubren U texto) (hxy : x.codigo = y.codigo) : x = y :=
  List.inj_on_of_nodup_map (nodup_cubren h texto) hx hy hxy

/-! ## A pick without a question -/

theorem eq_op_of_op? {x : Hallazgo} {op : Op} (h : x.op? = some op) : x = .op op := by
  cases x with
  | op o => exact congrArg Hallazgo.op (Option.some.inj h)
  | ambiguo => cases h

theorem opToma_eq_add {prods : List Producto} {item : Option ℕ} {c : Opcion} {q qty : Option ℤ}
    {code name brand fuente : Texto} (h : opToma prods item c q = .add code name brand qty fuente) :
    item = none ∧ code = c.code ∧ name = c.name := by
  cases item with
  | none =>
    cases h
    exact ⟨rfl, rfl, rfl⟩
  | some i => cases h

/-- A request without a typed code that becomes a line at once has one candidate left, and its
search found articles that cover it. -/
theorem busca_eq_add {prods : List Producto} {hits : List Hit} {p : Peticion}
    {code name brand fuente : Texto} {qty : Option ℤ}
    (hcod : codesInText U p.acto.productoTexto = [])
    (h : busca U prods hits p = .op (.add code name brand qty fuente)) :
    hits.any Hit.coversQuery ∧ ∃ c, candidatos U p.acto.productoTexto [] hits = [c] ∧
      code = c.code ∧ name = c.name := by
  unfold busca at h
  dsimp only at h
  generalize hcands : candidatos U p.acto.productoTexto
    (((p.item.bind fun i => prods[i]?).map Producto.rechazados).getD []) hits = cands at h
  rw [hcod] at h
  split at h
  · cases h
  · next c cs =>
    split at h
    · next exact' hfind =>
      have hmem := List.find?_some hfind
      simp at hmem
    · split at h
      · next hone =>
        obtain ⟨hcs, hany⟩ := Bool.and_eq_true_iff.mp hone
        obtain rfl := List.isEmpty_iff.mp hcs
        obtain ⟨hitem, hcode, hname⟩ := opToma_eq_add (Hallazgo.op.inj h)
        rw [hitem] at hcands
        exact ⟨hany, c, hcands, hcode, hname⟩
      · split at h
        · cases h
        · cases h

theorem busca_of_uno {prods : List Producto} {hits : List Hit} {a : Acto} {c : Opcion}
    (hcod : codesInText U a.productoTexto = []) (hhits : hits.any Hit.coversQuery)
    (hc : candidatos U a.productoTexto [] hits = [c]) :
    busca U prods hits ⟨a, none⟩ =
      .op (.add c.code c.name c.brand (Peticion.qty prods ⟨a, none⟩) c.fuente) := by
  unfold busca
  simp [hcod, hc, hhits, opToma]

/-! ## The only fit -/

def ProductRow.opcion (p : ProductRow) : Opcion := hitOpt p.hit

/-- An article that a filter sets aside next to the pick: a tester nobody asked for, a name that
contains another's, a name without the reference number of the text, a namesake of the pick. -/
def Aparte (U : Unicode) (h : Historial) (texto name : Texto) (x : ProductRow) : Prop :=
  sinTester U texto x.opcion = false ∨
    Dominado U ((h.cubren U texto).map ProductRow.opcion) x.opcion ∨
    conReferencia texto x.opcion = false ∨ normNombre U x.nombre = normNombre U name

/-- Whenever the request becomes a line without a question, no other article of the history that
covers it is left. -/
def EncajeUnico (U : Unicode) (aliases : List ClientAlias) (h : Historial) (texto : Texto) : Prop :=
  ∀ (qs : List Texto) (prods : List Producto) (p : Peticion) (code name brand : Texto)
    (qty : Option ℤ) (fuente : Texto), texto ∈ qs → p.acto.productoTexto = texto →
    busca U prods (buildRagCandidates U (some ⟨aliases, some h⟩) qs texto) p =
      .op (.add code name brand qty fuente) →
    ∀ x ∈ h.cubren U texto, x.codigo = code ∨ Aparte U h texto name x

/-- The article was not handed on to the resolver, or another one of its name was as well. -/
def SinMirar (U : Unicode) (h : Historial) (texto : Texto) (x : ProductRow) : Prop :=
  x ∉ h.mirados U texto ∨
    ∃ y ∈ h.mirados U texto, y.codigo ≠ x.codigo ∧ normNombre U y.nombre = normNombre U x.nombre

/-- Where one of the articles handed on beats the others, those that were not looked at are set
aside as well. -/
def NadaPerdido (U : Unicode) (h : Historial) (texto : Texto) : Prop :=
  ∀ c ∈ h.mirados U texto, Gana U texto ((h.mirados U texto).map ProductRow.opcion) c.opcion →
    ∀ x ∈ h.cubren U texto, SinMirar U h texto x → x.codigo = c.codigo ∨ Aparte U h texto c.nombre x

section Fit

variable {aliases : List ClientAlias} {h : Historial} {texto : Texto}

/-- A search without an alias hands on the articles looked at, or only near misses. -/
theorem buildRagCandidates_cases (halias : Ficha.aliasDe U ⟨aliases, some h⟩ texto = none)
    {qs : List Texto} (hqs : texto ∈ qs) :
    buildRagCandidates U (some ⟨aliases, some h⟩) qs texto =
        (h.mirados U texto).map ProductRow.hit ∨
      (h.mirados U texto = [] ∧
        ∀ x ∈ buildRagCandidates U (some ⟨aliases, some h⟩) qs texto, x.coversQuery = false) := by
  have hcontains : qs.contains texto = true := by simpa using hqs
  unfold buildRagCandidates
  dsimp only
  rw [hcontains, halias]
  cases hstrip : (Texto.strip texto).isEmpty with
  | true =>
    left
    simp [Historial.mirados, hstrip]
  | false => exact hits_matchHistory h hstrip

theorem candidatos_mirados_iff (hcod : codesInText U texto = []) {c : Opcion} :
    candidatos U texto [] ((h.mirados U texto).map ProductRow.hit) = [c] ↔
      Gana U texto ((h.mirados U texto).map ProductRow.opcion) c := by
  have hmap : (h.mirados U texto).map ProductRow.opcion =
      ((h.mirados U texto).map ProductRow.hit).map hitOpt := by
    rw [List.map_map]
    rfl
  rw [hmap]
  apply candidatos_eq_singleton_iff hcod
  · intro x hx
    obtain ⟨p, -, rfl⟩ := List.mem_map.mp hx
    rfl
  · rw [List.map_map]
    exact nodup_mirados h texto
  · intro x hx
    obtain ⟨p, hp, rfl⟩ := List.mem_map.mp hx
    exact h.conCodigo p (List.mem_of_mem_filter (mirados_subset h texto hp))
  · intro x hx
    obtain ⟨p, -, rfl⟩ := List.mem_map.mp hx
    rfl

/-- The pick is the article that beats the others among those handed on. -/
theorem gana_of_add (hcod : codesInText U texto = [])
    (halias : Ficha.aliasDe U ⟨aliases, some h⟩ texto = none) {qs : List Texto} (hqs : texto ∈ qs)
    {prods : List Producto} {p : Peticion} (hp : p.acto.productoTexto = texto)
    {code name brand fuente : Texto} {qty : Option ℤ}
    (hadd : busca U prods (buildRagCandidates U (some ⟨aliases, some h⟩) qs texto) p =
      .op (.add code name brand qty fuente)) :
    ∃ c ∈ h.mirados U texto, Gana U texto ((h.mirados U texto).map ProductRow.opcion) c.opcion ∧
      code = c.codigo ∧ name = c.nombre := by
  obtain ⟨hany, c, hc, hcode, hname⟩ := busca_eq_add (by rw [hp]; exact hcod) hadd
  rw [hp] at hc
  rcases buildRagCandidates_cases halias hqs with heq | ⟨-, hnone⟩
  · rw [heq] at hc
    have hgana := (candidatos_mirados_iff hcod).mp hc
    obtain ⟨d, hd, rfl⟩ := List.mem_map.mp (List.mem_of_mem_filter
      (List.mem_of_find?_eq_some hgana.1))
    exact ⟨d, hd, hgana, hcode, hname⟩
  · obtain ⟨x, hx, hcov⟩ := List.any_eq_true.mp hany
    rw [hnone x hx] at hcov
    cases hcov

/-- Among the articles looked at, each is the pick or set aside, unless a namesake stands before
it. -/
theorem aparte_of_gana {c x : ProductRow}
    (hgana : Gana U texto ((h.mirados U texto).map ProductRow.opcion) c.opcion)
    (hx : ¬ SinMirar U h texto x) : x.codigo = c.codigo ∨ Aparte U h texto c.nombre x := by
  unfold SinMirar at hx
  push Not at hx
  obtain ⟨hx, halone⟩ := hx
  by_cases hdom : Dominado U ((h.mirados U texto).map ProductRow.opcion) x.opcion
  · obtain ⟨a, ha, hax⟩ := hdom
    obtain ⟨y, hy, rfl⟩ := List.mem_map.mp ha
    exact Or.inr (Or.inr (Or.inl ⟨_, List.mem_map_of_mem (mirados_subset h texto hy), hax⟩))
  have hpie : x.opcion ∈ enPie U ((h.mirados U texto).map ProductRow.opcion) :=
    mem_enPie.mpr ⟨List.mem_map_of_mem hx, hdom⟩
  have hcabeza : Cabeza U ((h.mirados U texto).map ProductRow.opcion) x.opcion := by
    refine find?_eq_some_of_unique hpie (decide_eq_true rfl) fun o ho hname => ?_
    obtain ⟨y, hy, rfl⟩ := List.mem_map.mp (List.mem_of_mem_filter ho)
    by_cases hcode : y.codigo = x.codigo
    · rw [eq_of_codigo (mirados_subset h texto hy) (mirados_subset h texto hx) hcode]
    · exact absurd (of_decide_eq_true hname) (halone y hy hcode)
  rcases hgana.2 _ hcabeza with heq | ⟨-, htester⟩ | ⟨-, -, href⟩
  · exact Or.inl (congrArg Opcion.code heq)
  · exact Or.inr (Or.inl htester)
  · exact Or.inr (Or.inr (Or.inr (Or.inl href)))

/-- An automatic pick is the only fit of the whole history exactly when nothing the search left
out, and no later namesake, would have been a second one. -/
theorem encajeUnico_iff (hcod : codesInText U texto = [])
    (halias : Ficha.aliasDe U ⟨aliases, some h⟩ texto = none) :
    EncajeUnico U aliases h texto ↔ NadaPerdido U h texto := by
  constructor
  · intro hunico c hc hgana x hx _
    have hcands := (candidatos_mirados_iff hcod).mpr hgana
    rcases buildRagCandidates_cases halias (List.mem_singleton_self texto) with heq | ⟨hnil, -⟩
    · rw [← heq] at hcands
      have hany : (buildRagCandidates U (some ⟨aliases, some h⟩) [texto] texto).any
          Hit.coversQuery := by
        rw [heq]
        exact List.any_eq_true.mpr ⟨c.hit, List.mem_map_of_mem hc, rfl⟩
      let a : Acto := { tipo := .pedir, evidencia := texto, productoTexto := texto }
      have hadd := @busca_of_uno _ [] _ a _ hcod hany hcands
      exact hunico [texto] [] ⟨a, none⟩ _ _ _ _ _ (List.mem_singleton_self texto) rfl hadd x hx
    · rw [hnil] at hc
      cases hc
  · intro hnada qs prods p code name brand qty fuente hqs hp hadd x hx
    obtain ⟨c, hc, hgana, rfl, rfl⟩ := gana_of_add hcod halias hqs hp hadd
    by_cases hsin : SinMirar U h texto x
    · exact hnada c hc hgana x hx hsin
    · exact aparte_of_gana hgana hsin

end Fit

/-- A history of two articles, of which one is a shampoo. -/
def historialDeAna : Historial where
  filas := [
    { codigo := "10001", nombre := "CHAMPU RIZOS", veces := 50 },
    { codigo := "20001", nombre := "CREMA MANOS", veces := 7 }]
  unicos := by decide
  conCodigo := by decide

theorem ana_has_one_shampoo : EncajeUnico Unicode.latin [] historialDeAna "champu".toList := by
  obtain ⟨hcod, hcubren⟩ : codesInText Unicode.latin "champu".toList = [] ∧
      historialDeAna.cubren Unicode.latin "champu".toList = historialDeAna.filas.take 1 := by
    decide +kernel
  refine (encajeUnico_iff hcod rfl).mpr fun c hc _ x hx _ => ?_
  have hc' := mirados_subset _ _ hc
  rw [hcubren] at hx hc'
  obtain rfl := List.mem_singleton.mp hx
  obtain rfl := List.mem_singleton.mp hc'
  exact Or.inl rfl

/-- Two shampoos, and four testers that were ordered more often than the second. -/
def historialDeEva : Historial where
  filas := [
    { codigo := "10001", nombre := "CHAMPU RIZOS", veces := 50 },
    { codigo := "10002", nombre := "CHAMPU BRILLO TESTER", veces := 40 },
    { codigo := "10003", nombre := "CHAMPU SECO TESTER", veces := 30 },
    { codigo := "10004", nombre := "CHAMPU LISO TESTER", veces := 20 },
    { codigo := "10005", nombre := "CHAMPU GRASO TESTER", veces := 10 },
    { codigo := "10006", nombre := "CHAMPU CASPA", veces := 1 }]
  unicos := by decide
  conCodigo := by decide

/-- The five articles handed on are a shampoo and the testers, so the other shampoo is lost. -/
theorem sixth_shampoo_is_not_seen :
    ¬ EncajeUnico Unicode.latin [] historialDeEva "champu".toList := by
  intro h
  let a : Acto := { tipo := .pedir, evidencia := "champu".toList, productoTexto := "champu".toList }
  let x : ProductRow := { codigo := "10006", nombre := "CHAMPU CASPA", veces := 1 }
  obtain ⟨hadd, hx, hlast⟩ : (busca Unicode.latin []
        (buildRagCandidates Unicode.latin (some ⟨[], some historialDeEva⟩) ["champu".toList]
          "champu".toList) ⟨a, none⟩).op? =
        some (.add "10001".toList "CHAMPU RIZOS".toList [] none "pedidos".toList) ∧
      x ∈ historialDeEva.cubren Unicode.latin "champu".toList ∧
      ¬ (x.codigo = "10001".toList ∨
        Aparte Unicode.latin historialDeEva "champu".toList "CHAMPU RIZOS".toList x) := by
    unfold Aparte Dominado
    decide +kernel
  exact hlast (h _ [] ⟨a, none⟩ _ _ _ _ _ List.mem_cons_self rfl (eq_op_of_op? hadd) x hx)

end Chatlink.Agent
