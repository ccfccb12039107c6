import Chatlink.Agent.Closing

/-!
# Who writes the state

The reducer is meant to be the only writer of the cart and the open items. The resolver walks
the dictionaries of the state, and a request with a number that it ties to an open product
overwrites that product's quantity. `numeros` lists what it writes, in order, and `Callados`
says that the state has these numbers already.
-/
namespace Chatlink.Agent

open Lists

variable {U : Unicode} {E : Entorno} {e e' : Estado} {ps : List Producto} {as actos : List Acto}

/-! ## The numbers the resolver writes -/

/-- The open product one of whose options a request names by its code. -/
def porOpcion (U : Unicode) (espacio : Espacio (ℕ × Opcion)) (a : Acto) : Option ℕ :=
  (espacio.find? fun x => (codesInText U a.productoTexto).contains x.1).map fun x => x.2.2.1

/-- The open product of a request's wording. -/
def porTexto (U : Unicode) (ps : List Producto) (a : Acto) : Option ℕ :=
  (ligar U a.productoTexto (itemSpace ps)).unico

/-- The number a request brings to the product it is tied to. -/
def escrito (donde : Acto → Option ℕ) (a : Acto) : Option (ℕ × ℤ) :=
  (donde a).bind fun i => a.cantidad.valor.map fun v => (i, v)

/-- The products with the numbers written to them one after the other. -/
def escribe (ps : List Producto) (ws : List (ℕ × ℤ)) : List Producto :=
  ws.foldl (fun ps w => ponItemQty ps w.1 (some w.2)) ps

/-- What the resolver writes to the open products, in its order. -/
def numeros (U : Unicode) (e : Estado) (actos : List Acto) : List (ℕ × ℤ) :=
  (peticiones U e actos).filterMap (escrito (porOpcion U (opcionesSpace e.productosAbiertos))) ++
    (consultas U e actos).filterMap (escrito (porTexto U e.productosAbiertos))

/-- The last number written to each open product is the one it has. -/
def Callados (U : Unicode) (e : Estado) (actos : List Acto) : Prop :=
  ∀ i p, e.productosAbiertos[i]? = some p →
    ∀ v, (numeros U e actos).reverse.lookup i = some v → p.qty = some v

theorem escribe_append (ps : List Producto) (ws ws' : List (ℕ × ℤ)) :
    escribe ps (ws ++ ws') = escribe (escribe ps ws) ws' := List.foldl_append

/-- One request more: its number is written first. -/
theorem escribe_cons (donde : Acto → Option ℕ) (ps : List Producto) (a : Acto) (as : List Acto) :
    escribe ps ((a :: as).filterMap (escrito donde)) =
      escribe ((donde a).elim ps fun i => ponItemQty ps i a.cantidad.valor)
        (as.filterMap (escrito donde)) := by
  cases hi : donde a with
  | none => simp [escrito, hi]
  | some i =>
    cases hv : a.cantidad.valor with
    | none => simp [escrito, hi, hv, ponItemQty]
    | some v =>
      rw [List.filterMap_cons_some (b := (i, v)) (by simp [escrito, hi, hv])]
      rfl

theorem itemSpace_eq (ps : List Producto) :
    itemSpace ps = (ps.map Producto.texto).zipIdx.map fun (t, i) => (t, t, i) := by
  rw [itemSpace, List.zipIdx_map, List.map_map]
  rfl

theorem textos_ponItemQty (ps : List Producto) (i : ℕ) (v : Option ℤ) :
    (ponItemQty ps i v).map Producto.texto = ps.map Producto.texto := by
  cases v with
  | none => rfl
  | some v => exact map_modify_of_eq (f := fun p : Producto => { p with qty := some v }) (fun _ => rfl) ps i

theorem porTexto_ponItemQty (ps : List Producto) (i : ℕ) (v : Option ℤ) :
    porTexto U (ponItemQty ps i v) = porTexto U ps := by
  funext a
  rw [porTexto, porTexto, itemSpace_eq, itemSpace_eq, textos_ponItemQty]

theorem eligePorCodigo_productos (espacio : Espacio (ℕ × Opcion)) (ps : List Producto)
    (as : List Acto) :
    (eligePorCodigo U espacio ps as).1 = escribe ps (as.filterMap (escrito (porOpcion U espacio))) ∧
      (eligePorCodigo U espacio ps as).2.2 = as.filter fun a => (porOpcion U espacio a).isNone := by
  induction as generalizing ps with
  | nil => exact ⟨rfl, rfl⟩
  | cons a as ih =>
    rw [escribe_cons]
    cases hf : espacio.find? fun x => (codesInText U a.productoTexto).contains x.1 with
    | some x =>
      obtain ⟨k, t, i, o⟩ := x
      have hdonde : porOpcion U espacio a = some i := by rw [porOpcion, hf]; rfl
      obtain ⟨h1, h2⟩ := ih (ponItemQty ps i a.cantidad.valor)
      simp only [eligePorCodigo, hf]
      rw [h1, h2, hdonde]
      exact ⟨rfl, by simp [hdonde]⟩
    | none =>
      have hdonde : porOpcion U espacio a = none := by rw [porOpcion, hf]; rfl
      obtain ⟨h1, h2⟩ := ih ps
      simp only [eligePorCodigo, hf]
      rw [h1, h2, hdonde]
      exact ⟨rfl, by simp [hdonde]⟩

theorem enriquece_productos (ps : List Producto) (as : List Acto) :
    (enriquece U ps as).1 = escribe ps (as.filterMap (escrito (porTexto U ps))) := by
  induction as generalizing ps with
  | nil => rfl
  | cons a as ih =>
    rw [escribe_cons]
    cases hl : (ligar U a.productoTexto (itemSpace ps)).unico with
    | some i =>
      have hdonde : porTexto U ps a = some i := hl
      simp only [enriquece, hl]
      rw [ih, porTexto_ponItemQty, hdonde]
      rfl
    | none =>
      have hdonde : porTexto U ps a = none := hl
      simp only [enriquece, hl]
      rw [ih, hdonde]
      rfl

theorem porTexto_escribe (ps : List Producto) (ws : List (ℕ × ℤ)) :
    porTexto U (escribe ps ws) = porTexto U ps := by
  induction ws generalizing ps with
  | nil => rfl
  | cons w ws ih => exact (ih _).trans (porTexto_ponItemQty ps w.1 (some w.2))

theorem recontados_escribe (ps : List Producto) (ws : List (ℕ × ℤ)) :
    Recontados (fun _ => True) ps (escribe ps ws) := by
  induction ws generalizing ps with
  | nil => exact recontados_refl _ ps
  | cons w ws ih =>
    have hone : Recontados (fun _ => True) ps (ponItemQty ps w.1 (some w.2)) :=
      recontados_ponItemQty (a := { tipo := .pedir, cantidad := ⟨.total, some w.2⟩ }) trivial ps w.1
    exact recontados_trans hone (ih _)

/-- The product at a position has the last number written to it. -/
theorem getElem?_escribe (ps : List Producto) (ws : List (ℕ × ℤ)) (i : ℕ) :
    (escribe ps ws)[i]? = ps[i]?.map fun p => { p with qty := (ws.reverse.lookup i).or p.qty } := by
  induction ws using List.reverseRecOn with
  | nil => simp [escribe]
  | append_singleton ws w ih =>
    obtain ⟨j, v⟩ := w
    rw [escribe_append, List.reverse_append]
    change (ponItemQty (escribe ps ws) j (some v))[i]? =
      ps[i]?.map fun p => { p with qty := (((j, v) :: ws.reverse).lookup i).or p.qty }
    rw [ponItemQty, List.getElem?_modify, ih, List.lookup_cons]
    cases ps[i]? with
    | none => rfl
    | some p =>
      by_cases h : j = i
      · simp [h]
      · have hne : (i == j) = false := beq_false_of_ne (Ne.symm h)
        simp [h, hne]

/-- Nothing is changed exactly where every product has its last number already. -/
theorem escribe_eq_iff (ps : List Producto) (ws : List (ℕ × ℤ)) :
    escribe ps ws = ps ↔
      ∀ i p, ps[i]? = some p → ∀ v, ws.reverse.lookup i = some v → p.qty = some v := by
  constructor
  · intro h i p hp v hv
    have hi := getElem?_escribe ps ws i
    rw [h, hp, hv] at hi
    exact congrArg Producto.qty (Option.some.inj hi)
  · intro h
    apply List.ext_getElem?
    intro i
    rw [getElem?_escribe]
    cases hp : ps[i]? with
    | none => rfl
    | some p =>
      cases hv : ws.reverse.lookup i with
      | none => rfl
      | some v => simp [← h i p hp v hv]

/-! ## The state the resolver hands on -/

theorem conProductos_self (items : List Item) :
    conProductos items (items.filterMap Item.producto?) = items := by
  induction items with
  | nil => rfl
  | cons i items ih =>
    cases i with
    | producto p => exact congrArg (Item.producto p :: ·) ih
    | revisar texto qty => exact congrArg (Item.revisar texto qty :: ·) ih
    | conflicto c => exact congrArg (Item.conflicto c :: ·) ih
    | siNo v => exact congrArg (Item.siNo v :: ·) ih

theorem peticiones_of_mapM {rs : List (List Op × List Acto)}
    (h : actos.mapM (resuelveActo U e) = .ok rs) : rs.flatMap Prod.snd = peticiones U e actos := by
  induction actos generalizing rs with
  | nil =>
    cases h
    rfl
  | cons a as ih =>
    rw [List.mapM_cons] at h
    obtain ⟨r, hr, h⟩ := bind_eq_ok h
    obtain ⟨rs', hrs, h⟩ := bind_eq_ok h
    cases h
    have hone : peticiones U e (a :: as) = r.2 ++ peticiones U e as := by
      rw [peticiones, List.flatMap_cons, hr]
      rfl
    rw [List.flatMap_cons, ih hrs, hone]

theorem consultas_eq (U : Unicode) (e : Estado) (actos : List Acto) : consultas U e actos =
    (peticiones U e actos).filter fun a =>
      (porOpcion U (opcionesSpace e.productosAbiertos) a).isNone := by
  refine List.filter_congr fun a _ => ?_
  rw [eligeViva, porOpcion, Option.isNone_map, Option.not_isSome]

/-- What the resolver does to the state: it writes the numbers, and nothing else. -/
theorem resolver_productos {ops : List Op} (h : resolver U E actos e = .ok (ops, e')) :
    e' = { e with
      openItems := conProductos e.openItems (escribe e.productosAbiertos (numeros U e actos)) } := by
  unfold resolver at h
  obtain ⟨rs, hrs, h⟩ := bind_eq_ok h
  have hescritos : (enriquece U (eligePorCodigo U (opcionesSpace e.productosAbiertos)
      e.productosAbiertos (rs.flatMap Prod.snd)).1 (eligePorCodigo U
        (opcionesSpace e.productosAbiertos) e.productosAbiertos (rs.flatMap Prod.snd)).2.2).1 =
      escribe e.productosAbiertos (numeros U e actos) := by
    obtain ⟨h1, h2⟩ := eligePorCodigo_productos (U := U) (opcionesSpace e.productosAbiertos)
      e.productosAbiertos (rs.flatMap Prod.snd)
    rw [h2, h1, enriquece_productos, porTexto_escribe, ← escribe_append, peticiones_of_mapM hrs,
      ← consultas_eq]
    rfl
  cases h
  rw [← hescritos]

/-- The resolver hands on the state it was given exactly when it writes nothing new. -/
theorem resolver_eq_iff {ops : List Op} (h : resolver U E actos e = .ok (ops, e')) :
    e' = e ↔ Callados U e actos := by
  have hproductos := resolver_productos h
  have hrec := recontados_escribe e.productosAbiertos (numeros U e actos)
  rw [Callados, ← escribe_eq_iff]
  generalize escribe e.productosAbiertos (numeros U e actos) = ps at hproductos hrec
  constructor
  · rintro rfl
    have hps : e'.productosAbiertos = ps := by
      rw [congrArg Estado.productosAbiertos hproductos]
      exact conProductos_productos e'.openItems hrec
    exact hps.symm
  · rintro rfl
    rw [hproductos, Estado.productosAbiertos, conProductos_self]

/-! ## The turn -/

/-- The acts of a turn, and what became of the state before the reducer. -/
theorem turnoDe_actos {s : Sesion} {mensaje : Texto} {extraccion : Option Json} {t : Turno}
    (h : turnoDe U E s mensaje extraccion = .ok (.turno t)) :
    ∃ actos hablar,
      actosDelTurno U (Estado.fromSession s) mensaje extraccion = .ok (some actos, hablar) ∧
      ((actos = [] ∧ t.estado = Estado.fromSession s) ∨
        ∃ ops, resolver U E actos (Estado.fromSession s) = .ok (ops, t.estado)) := by
  unfold turnoDe at h
  dsimp only at h
  split at h
  · cases h
  · obtain ⟨⟨actos, hablar⟩, hactos, h⟩ := bind_eq_ok h
    split at h
    · cases h
    · next _ heq =>
      cases h
      cases heq
      exact ⟨[], _, hactos, .inl ⟨rfl, rfl⟩⟩
    · next as _ heq =>
      obtain ⟨⟨ops, e'⟩, hres, h⟩ := bind_eq_ok h
      cases h
      cases heq
      exact ⟨_, _, hactos, .inr ⟨ops, hres⟩⟩

theorem callados_nil (U : Unicode) (e : Estado) : Callados U e [] := fun _ _ _ _ hv => nomatch hv

/-- Whatever the services answer, the resolver hands on the state it was given, and the reducer of
a turn works on what was read from the session, exactly when every open product that a request with
a number names, by the code of an option or by its wording, has the last such number already. -/
theorem soleWriter_iff (U : Unicode) (E : Entorno) :
    (∀ actos e ops e', resolver U E actos e = .ok (ops, e') → (e' = e ↔ Callados U e actos)) ∧
    ∀ s mensaje extraccion t, turnoDe U E s mensaje extraccion = .ok (.turno t) →
      (t.estado = Estado.fromSession s ↔ ∀ actos hablar,
        actosDelTurno U (Estado.fromSession s) mensaje extraccion = .ok (some actos, hablar) →
        Callados U (Estado.fromSession s) actos) := by
  refine ⟨fun actos e ops e' h => resolver_eq_iff h, ?_⟩
  intro s mensaje extraccion t ht
  obtain ⟨actos, hablar, hactos, hestado⟩ := turnoDe_actos ht
  have hiff : t.estado = Estado.fromSession s ↔ Callados U (Estado.fromSession s) actos := by
    rcases hestado with ⟨rfl, hsame⟩ | ⟨ops, hres⟩
    · exact iff_of_true hsame (callados_nil U _)
    · exact resolver_eq_iff hres
  rw [hiff]
  constructor
  · intro h actos' hablar' hactos'
    obtain ⟨-, rfl, rfl⟩ : True ∧ actos' = actos ∧ hablar' = hablar := by
      simpa [hactos] using hactos'.symm
    exact h
  · intro h
    exact h actos hablar hactos

/-- An open product "kajal negro", asked for with two units. -/
def conKajal : Estado where
  orderStatus := .building
  openItems := [.producto { texto := "kajal negro", qty := some 2 }]

/-- A request with its number. -/
def pide (producto : Texto) (n : ℤ) : Acto :=
  { tipo := .pedir, evidencia := producto, productoTexto := producto, cantidad := ⟨.total, some n⟩ }

theorem soleWriter_of_kajal : ∃ ops,
    resolver .latin soloKajal [pide "kajal negro" 2] conKajal = .ok (ops, conKajal) := by
  have hrun : ((resolver .latin soloKajal [pide "kajal negro" 2] conKajal).toOption.map fun r =>
      r.1.length) = some 1 := by
    decide
  obtain ⟨⟨ops, e'⟩, hres, -⟩ := exists_of_toOption_map hrun
  have hnumeros : numeros .latin conKajal [pide "kajal negro" 2] = [(0, 2)] := by decide
  have hsame : e' = conKajal := by
    refine ((soleWriter_iff .latin soloKajal).1 _ _ _ _ hres).mpr fun i p hp v hv => ?_
    rw [hnumeros, List.reverse_singleton] at hv
    cases i with
    | zero =>
      have hqty : conKajal.productosAbiertos[0]?.map Producto.qty = some (some 2) := rfl
      rw [hp] at hqty
      exact (Option.some.inj hqty).trans hv
    | succ i => cases hv
  rw [hsame] at hres
  exact ⟨ops, hres⟩

/-- Six of another kajal make six of the one that is still open. -/
theorem other_kajal_is_counted :
    ¬ ∀ E actos e ops e', resolver .latin E actos e = .ok (ops, e') → e' = e := by
  intro h
  have hrun : ((resolver .latin soloKajal [pide "kajal azul" 6] conKajal).toOption.map fun r =>
      r.2.productosAbiertos.map fun p => (p.texto, p.qty)) =
      some [(("kajal negro" : Texto), some (6 : ℤ))] := by
    decide
  obtain ⟨⟨ops, e'⟩, hres, hqty⟩ := exists_of_toOption_map hrun
  rw [h _ _ _ _ _ hres] at hqty
  have htwo : conKajal.productosAbiertos.map (fun p => (p.texto, p.qty)) =
      [(("kajal negro" : Texto), some (2 : ℤ))] := rfl
  cases htwo.symm.trans hqty

end Chatlink.Agent
