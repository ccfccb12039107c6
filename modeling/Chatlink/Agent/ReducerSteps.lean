import Chatlink.Agent.Reducer
import Chatlink.Lib.Lists

/-!
# What one step of the reducer can do

The inversion lemmas of `add` and `setQty`, and how each view of the state (the
yes/no proposals, the open products, the cart) changes under one operation. The
invariants of whole turns are derived from these and never unfold `paso` again.
-/
namespace Chatlink.Agent

open Lists

namespace Trabajo

variable (t : Trabajo)

attribute [simp] emit descarta conEstado quita abre

/-- The status after a new line: a closed order stays closed. -/
def statusTrasLinea (s : OrderStatus) : OrderStatus := if s = .closed then .closed else .building

/-! ## Inversion of the two writers of lines -/

section Add

variable (code name brand : Texto) (qty : Option ℤ) (fuente aliasTexto : Texto)

/-- The locals after an `add` that finds its line as asked. -/
def addIgual (ln : Linea) : Trabajo :=
  { t with seenAdds := anotaAdd code qty t.seenAdds }.emit
    (.sinCambioConfirmado code (Texto.orElse ln.name name) ln.qty)

/-- The locals after an `add` that raises a quantity conflict. -/
def addConflicto (ln : Linea) (q : ℤ) : Trabajo :=
  let opcionesQty := sortedSet [q, ln.qty, q + ln.qty]
  let nombre := Texto.orElse ln.name name
  { t with
    seenAdds := anotaAdd code qty t.seenAdds
    e := { t.e with openItems := quitaConflictos code t.e.openItems ++
      [Item.conflicto ⟨code, nombre, opcionesQty⟩] } }.emit
    (.conflictoCantidad code nombre opcionesQty)

/-- The locals after an `add` that writes a new line. -/
def addNueva : Trabajo :=
  { t with
    seenAdds := anotaAdd code qty t.seenAdds
    addedNoQty := if qty = none then t.addedNoQty ++ [code] else t.addedNoQty
    e := { t.e with
      cart := t.e.cart ++ [Linea.mk code (qty.getD 1) name fuente brand]
      orderStatus := statusTrasLinea t.e.orderStatus } }.emit
    (.confirmado code name (qty.getD 1) (fuente = ("codigo_cliente" : Texto)) aliasTexto)

theorem add_cases :
    (∃ ln, t.e.linea code = some ln ∧ (qty = none ∨ qty = some ln.qty) ∧
      t.add code name brand qty fuente aliasTexto = t.addIgual code name qty ln) ∨
    (∃ ln q, t.e.linea code = some ln ∧ qty = some q ∧ q ≠ ln.qty ∧
      t.add code name brand qty fuente aliasTexto = t.addConflicto code name qty ln q) ∨
    (t.e.linea code = none ∧
      t.add code name brand qty fuente aliasTexto =
        t.addNueva code name brand qty fuente aliasTexto) := by
  cases hln : t.e.linea code with
  | none =>
    refine Or.inr (Or.inr ⟨rfl, ?_⟩)
    cases qty <;> simp [add, addNueva, hln, enMarcha, statusTrasLinea]
  | some ln =>
    cases qty with
    | none => exact Or.inl ⟨ln, rfl, Or.inl rfl, by simp [add, addIgual, hln]⟩
    | some q =>
      by_cases hq : q = ln.qty
      · exact Or.inl ⟨ln, rfl, Or.inr (by rw [hq]), by simp [add, addIgual, hln, hq]⟩
      · exact Or.inr (Or.inl ⟨ln, q, rfl, rfl, hq, by
          simp [add, addConflicto, hln, hq]⟩)

end Add

section SetQty

variable (code name : Texto) (modo : Modo) (valor : Option ℤ)

/-- A `modificar` that leads to a positive quantity `q` of the line `ln`. -/
def Fija (ln : Linea) (q : ℤ) : Prop :=
  t.e.linea code = some ln ∧ ∃ v, valor = some v ∧ modo ≠ .sinCambio ∧
    nuevaQty modo ln.qty v = q ∧ 0 < q

/-- A `modificar` that would leave nothing of the line `ln`. -/
def Vacia (ln : Linea) : Prop :=
  t.e.linea code = some ln ∧ ∃ v, valor = some v ∧ modo ≠ .sinCambio ∧
    nuevaQty modo ln.qty v ≤ 0

theorem setQty_cases :
    (t.e.linea code = none ∧ t.setQty code name modo valor =
      (t.descarta (.modificarFueraDeCarrito code)).emit
        (.referenciaAmbigua (name.orElse code) [])) ∨
    (∃ ln, t.e.linea code = some ln ∧ (valor = none ∨ modo = .sinCambio) ∧
      t.setQty code name modo valor =
        t.emit (.sinCambioConfirmado code (Texto.orElse ln.name name) ln.qty)) ∨
    (∃ ln v, t.Vacia code modo valor ln ∧ t.e.siNoVivo = some v ∧
      t.setQty code name modo valor = t.descarta (.siNoDuplicada .baja)) ∨
    (∃ ln, t.Vacia code modo valor ln ∧ t.e.siNoVivo = none ∧
      t.setQty code name modo valor =
        (t.abre (.siNo { tipo := .baja, code := code, name := Texto.orElse ln.name name })).emit
          (.preguntaBaja code (Texto.orElse ln.name name))) ∨
    (∃ ln q, t.Fija code modo valor ln q ∧ t.setQty code name modo valor =
      (t.conEstado { t.e with cart := ponQty code q t.e.cart }).emit
        (.actualizado code (Texto.orElse ln.name name) q)) := by
  cases hln : t.e.linea code with
  | none => exact Or.inl ⟨rfl, by simp [setQty, hln]⟩
  | some ln =>
    refine Or.inr ?_
    cases valor with
    | none => exact Or.inl ⟨ln, rfl, Or.inl rfl, by simp [setQty, hln]⟩
    | some v =>
      by_cases hm : modo = .sinCambio
      · exact Or.inl ⟨ln, rfl, Or.inr hm, by simp [setQty, hln, hm]⟩
      · refine Or.inr ?_
        by_cases hn : nuevaQty modo ln.qty v ≤ 0
        · have hv : t.Vacia code modo (some v) ln := ⟨hln, v, rfl, hm, hn⟩
          cases hs : t.e.siNoVivo with
          | some p =>
            exact Or.inl ⟨ln, p, hv, rfl, by simp [setQty, hln, hm, hn, nuevaSiNo, hs]⟩
          | none =>
            refine Or.inr (Or.inl ⟨ln, hv, rfl, ?_⟩)
            simp [setQty, hln, hm, hn, nuevaSiNo, hs]
        · refine Or.inr (Or.inr ⟨ln, nuevaQty modo ln.qty v,
            ⟨hln, v, rfl, hm, rfl, by omega⟩, ?_⟩)
          simp [setQty, hln, hm, hn]

end SetQty

theorem nuevaSiNo_cases (p : Propuesta) (titulo : Titulo) :
    (∃ v, t.e.siNoVivo = some v ∧
      t.nuevaSiNo p titulo = (t.descarta (.siNoDuplicada p.tipo), false)) ∨
    (t.e.siNoVivo = none ∧
      t.nuevaSiNo p titulo = ((t.abre (.siNo p)).emit (.propuesta p.tipo p.items titulo), true)) := by
  cases h : t.e.siNoVivo with
  | some v => exact Or.inl ⟨v, rfl, by simp [nuevaSiNo, h]⟩
  | none => exact Or.inr ⟨rfl, by simp [nuevaSiNo, h]⟩

end Trabajo

/-! ## The items a view sees -/

section Views

variable {β : Type*} {f : Item → Option β}

theorem filterMap_quitaConflictos (hf : ∀ c, f (.conflicto c) = none) (code : Texto)
    (items : List Item) : (quitaConflictos code items).filterMap f = items.filterMap f := by
  apply filterMap_filter_of_false
  intro i hi
  cases i with
  | conflicto c => exact hf c
  | producto p => simp [Item.conflictoDe] at hi
  | revisar texto qty => simp [Item.conflictoDe] at hi
  | siNo p => simp [Item.conflictoDe] at hi

/-- A view that does not see what changed. -/
theorem filterMap_cambiaProducto_of_eq {g : Producto → Producto}
    (hf : ∀ p, f (.producto (g p)) = f (.producto p)) (texto : Texto) (items : List Item) :
    (cambiaProducto texto g items).filterMap f = items.filterMap f := by
  induction items with
  | nil => rfl
  | cons i items ih =>
    cases i with
    | producto p =>
      by_cases h : p.texto = texto
      · simp [cambiaProducto, h, List.filterMap_cons, hf]
      · simp [cambiaProducto, h, List.filterMap_cons, ih]
    | revisar t q => cases h : f (.revisar t q) <;> simp [cambiaProducto, h, ih]
    | conflicto c => cases h : f (.conflicto c) <;> simp [cambiaProducto, h, ih]
    | siNo p => cases h : f (.siNo p) <;> simp [cambiaProducto, h, ih]

theorem filterMap_cambiaProducto (hf : ∀ p, f (.producto p) = none) (texto : Texto)
    (g : Producto → Producto) (items : List Item) :
    (cambiaProducto texto g items).filterMap f = items.filterMap f :=
  filterMap_cambiaProducto_of_eq (fun p => (hf (g p)).trans (hf p).symm) texto items

theorem siNo?_eq_some (i : Item) (p : Propuesta) : i.siNo? = some p ↔ i = .siNo p := by
  cases i <;> simp [Item.siNo?]

theorem producto?_eq_some (i : Item) (p : Producto) : i.producto? = some p ↔ i = .producto p := by
  cases i <;> simp [Item.producto?]

theorem conflicto?_eq_some (i : Item) (c : Conflicto) :
    i.conflicto? = some c ↔ i = .conflicto c := by
  cases i <;> simp [Item.conflicto?]

end Views

/-! ## The yes/no proposals -/

theorem siNos_erase_producto (p : Producto) (items : List Item) :
    (items.erase (.producto p)).filterMap Item.siNo? = items.filterMap Item.siNo? :=
  filterMap_erase_of_none rfl items

theorem siNos_erase_conflicto (c : Conflicto) (items : List Item) :
    (items.erase (.conflicto c)).filterMap Item.siNo? = items.filterMap Item.siNo? :=
  filterMap_erase_of_none rfl items

theorem Trabajo.add_siNos (t : Trabajo) (code name brand : Texto) (qty : Option ℤ)
    (fuente aliasTexto : Texto) :
    (t.add code name brand qty fuente aliasTexto).e.siNos = t.e.siNos := by
  rcases t.add_cases code name brand qty fuente aliasTexto with
    ⟨ln, -, -, h⟩ | ⟨ln, q, -, -, -, h⟩ | ⟨-, h⟩
  · rw [h]; rfl
  · rw [h]
    simp [addConflicto, Estado.siNos, filterMap_quitaConflictos (f := Item.siNo?) (fun _ => rfl),
      Item.siNo?]
  · rw [h]; rfl

theorem ejecuta_siNos (t : Trabajo) (vivo : Propuesta) : (ejecuta t vivo).e.siNos = t.e.siNos := by
  unfold ejecuta
  cases vivo.tipo with
  | cierre =>
    refine foldl_component (f := fun t : Trabajo => t.e.siNos) _ (fun t p _ => ?_) t
    simp [Estado.siNos, siNos_erase_producto, Item.siNo?]
  | baja => dsimp only; split <;> rfl
  | media =>
    exact foldl_component (f := fun t : Trabajo => t.e.siNos) _ (fun t l _ => t.add_siNos ..) t
  | repetir =>
    exact foldl_component (f := fun t : Trabajo => t.e.siNos) _ (fun t l _ => t.add_siNos ..) t

/-- The proposal an operation opens in a state without a live one. -/
def apertura (e : Estado) : Op → Option Propuesta
  | .cerrar =>
    if e.cart.isEmpty && e.productosAbiertos.isEmpty && e.aRevisar.isEmpty then none
    else some { tipo := .cierre, items := e.cart }
  | .repetirUltimo qo =>
    if e.lastClosedCart.isEmpty then none
    else some
      { tipo := .repetir
        items := (e.lastClosedCart.filter fun c => !c.code.isEmpty).map (lineaRepetida qo) }
  | .modificar code name modo valor _ _ =>
    match e.linea code, valor with
    | some ln, some v =>
      if modo ≠ .eliminar ∧ modo ≠ .sinCambio ∧ nuevaQty modo ln.qty v ≤ 0 then
        some { tipo := .baja, code := code, name := Texto.orElse ln.name name }
      else none
    | _, _ => none
  | _ => none

/-- The operations that answer a yes/no question. -/
def esRespuesta : Op → Bool
  | .confirmar => true
  | .negar => true
  | _ => false

theorem siNoVivo_eq_none {e : Estado} : e.siNoVivo = none ↔ e.siNos = [] := by
  simp [Estado.siNoVivo]

theorem siNoVivo_eq_some {e : Estado} {v : Propuesta} :
    e.siNoVivo = some v ↔ ∃ vs, e.siNos = v :: vs := by
  unfold Estado.siNoVivo
  cases e.siNos <;> simp

theorem Trabajo.quita_siNos (t : Trabajo) {v : Propuesta} (h : t.e.siNoVivo = some v) :
    (t.quita (.siNo v)).e.siNos = t.e.siNos.tail := by
  obtain ⟨vs, hvs⟩ := siNoVivo_eq_some.mp h
  have he : (t.e.openItems.erase (.siNo v)).filterMap Item.siNo? = t.e.siNos.erase v :=
    filterMap_erase_of_some siNo?_eq_some v _
  rw [hvs, List.tail_cons]
  exact he.trans (by rw [hvs, List.erase_cons_head])

theorem Trabajo.nuevaSiNo_siNos (t : Trabajo) (p : Propuesta) (titulo : Titulo) :
    (t.nuevaSiNo p titulo).1.e.siNos = if t.e.siNos = [] then [p] else t.e.siNos := by
  rcases t.nuevaSiNo_cases p titulo with ⟨v, hv, h⟩ | ⟨hv, h⟩
  · obtain ⟨vs, hvs⟩ := siNoVivo_eq_some.mp hv
    rw [h, if_neg (by simp [hvs])]
    rfl
  · have hs := siNoVivo_eq_none.mp hv
    rw [h, if_pos hs]
    simpa [Estado.siNos, Item.siNo?] using hs

theorem Trabajo.setQty_siNos (t : Trabajo) (code name : Texto) (modo : Modo) (valor : Option ℤ)
    (hm : modo ≠ .eliminar) (b : Bool) (vn : Option ℤ) :
    (t.setQty code name modo valor).e.siNos =
      if t.e.siNos = [] then (apertura t.e (.modificar code name modo valor b vn)).toList
      else t.e.siNos := by
  have hsame (h : apertura t.e (.modificar code name modo valor b vn) = none) :
      t.e.siNos = if t.e.siNos = [] then
        (apertura t.e (.modificar code name modo valor b vn)).toList else t.e.siNos := by
    by_cases hs : t.e.siNos = [] <;> simp [hs, h]
  rcases t.setQty_cases code name modo valor with
    ⟨hln, h⟩ | ⟨ln, hln, hv, h⟩ | ⟨ln, w, -, hw, h⟩ | ⟨ln, ⟨hln, v, rfl, hc, hn⟩, hw, h⟩ |
      ⟨ln, q, ⟨hln, v, rfl, hc, hn, hq⟩, h⟩
  · rw [h]
    exact hsame (by simp [apertura, hln])
  · rw [h]
    refine hsame ?_
    rcases hv with rfl | rfl
    · simp [apertura, hln]
    · cases valor <;> simp [apertura, hln]
  · obtain ⟨vs, hvs⟩ := siNoVivo_eq_some.mp hw
    rw [h, if_neg (by simp [hvs])]
    rfl
  · have hs := siNoVivo_eq_none.mp hw
    have hs' : t.e.openItems.filterMap Item.siNo? = [] := hs
    rw [h, if_pos hs]
    simp [apertura, hln, hm, hc, hn, Estado.siNos, hs', Item.siNo?]
  · rw [h]
    refine hsame ?_
    have hpos : ¬ nuevaQty modo ln.qty v ≤ 0 := by omega
    simp [apertura, hln, hpos]

/-- The whole effect of an operation on the yes/no proposals: an answer takes the live
one, a few operations open one when none is live, the others leave them alone. -/
theorem paso_siNos (fm : Bool) (t : Trabajo) (op : Op) :
    (paso fm t op).e.siNos =
      if esRespuesta op then t.e.siNos.tail
      else if t.e.siNos = [] then (apertura t.e op).toList else t.e.siNos := by
  have hsame (h : apertura t.e op = none) :
      t.e.siNos = if t.e.siNos = [] then (apertura t.e op).toList else t.e.siNos := by
    by_cases hs : t.e.siNos = [] <;> simp [hs, h]
  cases op with
  | add code name brand qty fuente =>
    refine Eq.trans ?_ (hsame rfl)
    cases fm with
    | true => rfl
    | false => exact t.add_siNos ..
  | modificar code name modo valor b vn =>
    by_cases hm : modo = .eliminar
    · have hnone : apertura t.e (.modificar code name modo valor b vn) = none := by
        cases hl : t.e.linea code <;> cases valor <;> simp [apertura, hl, hm]
      refine Eq.trans ?_ (hsame hnone)
      simp only [paso, hm, if_true]
      split
      · rfl
      · split <;> rfl
    · simp only [paso, hm, if_false, esRespuesta]
      exact t.setQty_siNos code name modo valor hm b vn
  | opciones texto qty ops ind =>
    refine Eq.trans ?_ (hsame rfl)
    have hpre : ∀ u : Trabajo, u.e.siNos = t.e.siNos →
        (cambiaProducto texto (fun p =>
          { p with qty := qty.orElse fun _ => p.qty
                   opciones := ops.filter fun o => !p.rechazados.contains o.code })
          u.e.openItems).filterMap Item.siNo? = t.e.siNos := by
      intro u hu
      rw [filterMap_cambiaProducto (fun _ => rfl)]
      exact hu
    simp only [paso]
    split <;> split <;> simp only [Trabajo.emit, Trabajo.conEstado, Estado.siNos] <;>
      first
        | exact hpre t rfl
        | exact hpre _ (by simp [Estado.siNos, Item.siNo?])
  | sinCandidatos texto qty =>
    refine Eq.trans ?_ (hsame rfl)
    simp only [paso]
    split
    · rfl
    · simp [Estado.siNos, Item.siNo?]
  | codigoNoExiste code => exact hsame rfl
  | rechazo objetivo =>
    refine Eq.trans ?_ (hsame rfl)
    simp only [paso]
    split
    · rfl
    · exact filterMap_cambiaProducto (fun _ => rfl) _ _ _
  | elige itemTexto code name brand fuente =>
    refine Eq.trans ?_ (hsame rfl)
    simp only [paso]
    split
    · rw [Trabajo.add_siNos]
      exact siNos_erase_producto _ _
    · exact t.add_siNos ..
  | eligeQty code valor =>
    refine Eq.trans ?_ (hsame rfl)
    simp only [paso]
    split
    · rfl
    · split
      · split <;> exact siNos_erase_conflicto _ _
      · rfl
  | referenciaAmbigua texto candidatas => exact hsame rfl
  | cantidadGlobal valor =>
    refine Eq.trans ?_ (hsame rfl)
    simp only [paso]
    split
    · split <;> rfl
    · rfl
  | repetirUltimo qo =>
    simp only [paso, apertura, esRespuesta]
    split
    · by_cases hs : t.e.siNos = [] <;> simp [hs]
    · rw [Trabajo.nuevaSiNo_siNos]
      rfl
  | cerrar =>
    simp only [paso, apertura, esRespuesta]
    split
    · by_cases hs : t.e.siNos = [] <;> simp [hs]
    · rw [Trabajo.nuevaSiNo_siNos]
      rfl
  | confirmar =>
    simp only [paso, esRespuesta, if_true]
    cases hv : t.e.siNoVivo with
    | none => simp [siNoVivo_eq_none.mp hv]
    | some v => exact (ejecuta_siNos _ v).trans (t.quita_siNos hv)
  | negar =>
    simp only [paso, esRespuesta, if_true]
    cases hv : t.e.siNoVivo with
    | none => simp [siNoVivo_eq_none.mp hv]
    | some v => exact t.quita_siNos hv
  | otro subtipo =>
    refine Eq.trans ?_ (hsame rfl)
    cases subtipo with
    | noSabe =>
      simp only [paso, pasoOtro]
      split
      · rfl
      · refine foldl_component (f := fun t : Trabajo => t.e.siNos) _ (fun t p _ => ?_) t
        simp [Trabajo.mandaRevisar, Estado.siNos, siNos_erase_producto, Item.siNo?]
    | _ => rfl

/-! ## The cart, the status and the facts -/

/-- Facts that say nothing about a line of the cart. -/
def Hecho.neutral : Hecho → Bool
  | .confirmado .. => false
  | .actualizado .. => false
  | .sinCambioConfirmado .. => false
  | .eliminado .. => false
  | .cerrado .. => false
  | _ => true

/-- A step that leaves the cart, the status and the bookkeeping of the adds alone and
emits neutral facts only. It may still open, change or remove open items. -/
structure Quieto (t t' : Trabajo) : Prop where
  cart : t'.e.cart = t.e.cart
  orderStatus : t'.e.orderStatus = t.e.orderStatus
  lastClosedCart : t'.e.lastClosedCart = t.e.lastClosedCart
  seenAdds : t'.seenAdds = t.seenAdds
  addedNoQty : t'.addedNoQty = t.addedNoQty
  mediaBatch : t'.mediaBatch = t.mediaBatch
  hechos : ∃ hs, t'.hechos = t.hechos ++ hs ∧ ∀ h ∈ hs, Hecho.neutral h

namespace Quieto

variable {t u v : Trabajo}

theorem refl (t : Trabajo) : Quieto t t := ⟨rfl, rfl, rfl, rfl, rfl, rfl, [], by simp, by simp⟩

theorem trans (h : Quieto t u) (k : Quieto u v) : Quieto t v := by
  obtain ⟨hs, hh, hn⟩ := h.hechos
  obtain ⟨ks, kh, kn⟩ := k.hechos
  refine ⟨k.cart.trans h.cart, k.orderStatus.trans h.orderStatus,
    k.lastClosedCart.trans h.lastClosedCart, k.seenAdds.trans h.seenAdds,
    k.addedNoQty.trans h.addedNoQty, k.mediaBatch.trans h.mediaBatch, hs ++ ks,
    by rw [kh, hh, List.append_assoc], ?_⟩
  intro x hx
  rcases List.mem_append.mp hx with hx | hx
  · exact hn x hx
  · exact kn x hx

theorem emit (h : Quieto t u) {x : Hecho} (hx : x.neutral) : Quieto t (u.emit x) :=
  h.trans ⟨rfl, rfl, rfl, rfl, rfl, rfl, [x], rfl, by simpa using hx⟩

theorem descarta (h : Quieto t u) (d : Descarte) : Quieto t (u.descarta d) :=
  h.trans ⟨rfl, rfl, rfl, rfl, rfl, rfl, [], by simp, by simp⟩

/-- Changing the open items only is quiet. -/
theorem conItems (h : Quieto t u) (items : List Item) :
    Quieto t (u.conEstado { u.e with openItems := items }) :=
  h.trans ⟨rfl, rfl, rfl, rfl, rfl, rfl, [], by simp, by simp⟩

theorem quita (h : Quieto t u) (i : Item) : Quieto t (u.quita i) := h.conItems _

theorem abre (h : Quieto t u) (i : Item) : Quieto t (u.abre i) := h.conItems _

theorem linea (h : Quieto t u) (code : Texto) : u.e.linea code = t.e.linea code := by
  simp only [Estado.linea, h.cart]

theorem foldl {α : Type*} {step : Trabajo → α → Trabajo} (hs : ∀ t a, Quieto t (step t a))
    (l : List α) (t : Trabajo) : Quieto t (l.foldl step t) :=
  foldl_keeps (P := fun u => Quieto t u) l (fun u a _ hu => hu.trans (hs u a)) (refl t)

end Quieto

/-- The request an operation makes for a line of `code` with quantity `qty`; a pick
asks for the quantity its open product already has. -/
def Op.Pide (e : Estado) (code : Texto) (qty : Option ℤ) : Op → Prop
  | .add c _ _ q _ => c = code ∧ q = qty
  | .elige item c _ _ _ => c = code ∧
      (qty = none ∨ ∃ p ∈ e.productosAbiertos, p.texto = item ∧ p.qty = qty)
  | _ => False

/-- The quantity `q` an operation sets on the line `ln`. -/
def Op.Fija (e : Estado) (ln : Linea) (q : ℤ) : Op → Prop
  | .modificar c _ modo valor _ _ => c = ln.code ∧ modo ≠ .eliminar ∧ 0 < q ∧
      ∃ v, valor = some v ∧ nuevaQty modo ln.qty v = q
  | .eligeQty c v => c = ln.code ∧ v = q ∧ ∃ k ∈ e.conflictos, k.code = c ∧ v ∈ k.opcionesQty
  | _ => False

/-- The operation removes the line of `code`. -/
def Op.Borra (e : Estado) (code : Texto) : Op → Prop
  | .modificar c _ modo _ conNumeral _ => c = code ∧ modo = .eliminar ∧ conNumeral = false
  | .confirmar => ∃ v, e.siNoVivo = some v ∧ v.tipo = .baja ∧ v.code = code
  | _ => False

/-- Proposals whose confirmation adds their lines. -/
def TipoSiNo.deLineas : TipoSiNo → Bool
  | .media => true
  | .repetir => true
  | _ => false

/-- Everything one operation can do to the cart, the status and the facts about lines. -/
inductive Efecto (t : Trabajo) (op : Op) : Trabajo → Prop
  | quieto {t'} (h : Quieto t t') : Efecto t op t'
  | aparta {code name qty fuente} (brand : Texto) (hop : op = .add code name brand qty fuente) :
      Efecto t op { t with mediaBatch := t.mediaBatch ++ [(code, name, qty, fuente)] }
  | dice {code ln} (name : Texto) (hln : t.e.linea code = some ln) :
      Efecto t op (t.emit (.sinCambioConfirmado code name ln.qty))
  | add {u code qty} (name brand fuente aliasTexto : Texto) (hu : Quieto t u)
      (hop : op.Pide t.e code qty) : Efecto t op (u.add code name brand qty fuente aliasTexto)
  | fija {u ln q} (name : Texto) (hu : Quieto t u) (hln : t.e.linea ln.code = some ln)
      (hop : op.Fija t.e ln q) :
      Efecto t op ((u.conEstado { u.e with cart := ponQty ln.code q u.e.cart }).emit
        (.actualizado ln.code name q))
  | nueva {u code q} (name : Texto) (hu : Quieto t u) (hln : t.e.linea code = none)
      (hop : op = .eligeQty code q)
      (hq : ∃ k ∈ t.e.conflictos, k.code = code ∧ q ∈ k.opcionesQty) :
      Efecto t op ((u.conEstado { u.e with
        cart := u.e.cart ++ [⟨code, q, name, [], []⟩] }).enMarcha.emit
          (.confirmado code name q false []))
  | borra {u code} (name : Texto) (hu : Quieto t u) (hop : op.Borra t.e code) :
      Efecto t op ((u.conEstado { u.e with
        cart := u.e.cart.filter fun l => l.code ≠ code }).emit (.eliminado code name))
  | lineas {u v} (fuente : Texto) (hu : Quieto t u) (hop : op = .confirmar)
      (hv : t.e.siNoVivo = some v) (ht : v.tipo.deLineas) :
      Efecto t op (v.items.foldl (Trabajo.addLinea fuente) u)
  | cierra {u v} (hu : Quieto t u) (hop : op = .confirmar) (hv : t.e.siNoVivo = some v)
      (ht : v.tipo = .cierre) (rs : List Texto) :
      Efecto t op ((u.conEstado { u.e with orderStatus := .closed }).emit (.cerrado u.e.cart rs))

theorem linea_code {e : Estado} {code : Texto} {ln : Linea} (h : e.linea code = some ln) :
    ln.code = code := by
  simpa using List.find?_some h

theorem mem_of_linea {e : Estado} {code : Texto} {ln : Linea} (h : e.linea code = some ln) :
    ln ∈ e.cart := List.mem_of_find?_eq_some h

/-- Sending open products to review at the close is quiet. -/
theorem revision_quieto (ps : List Producto) (t : Trabajo) :
    Quieto t (ps.foldl
      (fun t p => (t.quita (.producto p)).abre (.revisar p.texto p.qty)) t) :=
  Quieto.foldl (fun t p => ((Quieto.refl t).quita (.producto p)).abre (.revisar p.texto p.qty)) ps t

theorem ejecuta_efecto {t : Trabajo} {v : Propuesta} (hv : t.e.siNoVivo = some v) :
    Efecto t .confirmar (ejecuta (t.quita (.siNo v)) v) := by
  have hu : Quieto t (t.quita (.siNo v)) := (Quieto.refl t).quita _
  unfold ejecuta
  cases ht : v.tipo with
  | cierre => exact .cierra (hu.trans (revision_quieto _ _)) rfl hv ht _
  | baja =>
    dsimp only
    split
    · exact .borra _ hu ⟨v, hv, ht, rfl⟩
    · exact .quieto hu
  | media => exact .lineas _ hu rfl hv (by rw [ht]; rfl)
  | repetir => exact .lineas _ hu rfl hv (by rw [ht]; rfl)

theorem setQty_efecto (t : Trabajo) (code name : Texto) {modo : Modo} (valor : Option ℤ) (b : Bool)
    (vn : Option ℤ) (hm : modo ≠ .eliminar) :
    Efecto t (.modificar code name modo valor b vn) (t.setQty code name modo valor) := by
  have h0 := Quieto.refl t
  rcases t.setQty_cases code name modo valor with
    ⟨-, h⟩ | ⟨ln, hln, -, h⟩ | ⟨ln, w, -, -, h⟩ | ⟨ln, -, -, h⟩ |
      ⟨ln, q, ⟨hln, v, hv, -, hn, hq⟩, h⟩
  all_goals rw [h]
  · exact .quieto ((h0.descarta _).emit rfl)
  · exact .dice _ hln
  · exact .quieto (h0.descarta _)
  · exact .quieto ((h0.abre _).emit rfl)
  · obtain rfl := linea_code hln
    exact .fija _ h0 hln ⟨rfl, hm, hq, v, hv, hn⟩

theorem nuevaSiNo_quieto (t : Trabajo) (p : Propuesta) (titulo : Titulo) :
    Quieto t (t.nuevaSiNo p titulo).1 := by
  have h0 := Quieto.refl t
  rcases t.nuevaSiNo_cases p titulo with ⟨v, -, h⟩ | ⟨-, h⟩ <;> rw [h]
  · exact h0.descarta _
  · exact (h0.abre _).emit rfl

theorem pasoOtro_quieto (t : Trabajo) (subtipo : Subtipo) : Quieto t (pasoOtro t subtipo) := by
  have h0 := Quieto.refl t
  cases subtipo with
  | noSabe =>
    simp only [pasoOtro]
    split
    · exact h0.emit rfl
    · exact Quieto.foldl
        (fun t (p : Producto) => (((Quieto.refl t).quita _).abre _).emit
          (x := .aRevisar p.texto) rfl) _ _
  | _ => exact h0.emit rfl

/-- The operations that can neither write a line nor speak of one. -/
def Op.callada : Op → Bool
  | .add .. => false
  | .modificar .. => false
  | .elige .. => false
  | .eligeQty .. => false
  | .confirmar => false
  | _ => true

theorem paso_quieto (fm : Bool) (t : Trabajo) {op : Op} (hop : op.callada) :
    Quieto t (paso fm t op) := by
  have h0 := Quieto.refl t
  cases op with
  | add code name brand qty fuente => cases hop
  | modificar code name modo valor b vn => cases hop
  | elige itemTexto code name brand fuente => cases hop
  | eligeQty code valor => cases hop
  | confirmar => cases hop
  | opciones texto qty ops ind =>
    simp only [paso]
    -- the product is open already or is opened now; either way its options are set, and
    -- asked for if it is there to be asked about
    split
    · split
      · exact (h0.conItems _).emit rfl
      · exact ((h0.abre _).conItems _).emit rfl
    · split
      · exact h0.conItems _
      · exact (h0.abre _).conItems _
  | sinCandidatos texto qty =>
    simp only [paso]
    split
    · exact h0.emit rfl
    · exact (h0.abre _).emit rfl
  | codigoNoExiste code => exact h0.emit rfl
  | rechazo objetivo =>
    simp only [paso]
    split
    · exact (h0.descarta _).emit rfl
    · exact (h0.conItems _).emit rfl
  | referenciaAmbigua texto candidatas => exact h0.emit rfl
  | cantidadGlobal valor =>
    simp only [paso]
    split
    · split
      · exact h0
      · exact ⟨rfl, rfl, rfl, rfl, rfl, rfl, [], by simp, by simp⟩
    · exact h0
  | repetirUltimo qo =>
    simp only [paso]
    split
    · exact h0.emit rfl
    · exact nuevaSiNo_quieto ..
  | cerrar =>
    simp only [paso]
    split
    · exact h0.emit rfl
    · exact nuevaSiNo_quieto ..
  | negar =>
    simp only [paso]
    split
    · exact h0.emit rfl
    · exact (h0.quita _).emit rfl
  | otro subtipo => exact pasoOtro_quieto t subtipo

/-- The step lemma of the reducer. -/
theorem paso_efecto (fm : Bool) (t : Trabajo) (op : Op) : Efecto t op (paso fm t op) := by
  have h0 := Quieto.refl t
  cases op with
  | add code name brand qty fuente =>
    cases fm with
    | true => exact .aparta brand rfl
    | false => exact .add _ _ _ _ h0 ⟨rfl, rfl⟩
  | modificar code name modo valor b vn =>
    by_cases hm : modo = .eliminar
    · simp only [paso, hm, if_true]
      split
      · exact .quieto (h0.descarta _)
      · next ln hln =>
        split
        · exact .quieto (h0.emit rfl)
        · next hb => exact .borra _ h0 ⟨(linea_code hln).symm, rfl, by simpa using hb⟩
    · simp only [paso, hm, if_false]
      exact setQty_efecto t code name valor b vn hm
  | elige itemTexto code name brand fuente =>
    simp only [paso]
    split
    · next p hp =>
      refine .add _ _ _ _ (h0.quita _) ⟨rfl, Or.inr ⟨p, List.mem_of_find?_eq_some hp, ?_, rfl⟩⟩
      simpa using List.find?_some hp
    · exact .add _ _ _ _ h0 ⟨rfl, Or.inl rfl⟩
  | eligeQty code valor =>
    simp only [paso]
    split
    · exact .quieto (h0.descarta _)
    · next c hc =>
      have hmem := List.mem_of_find?_eq_some hc
      have hcode : c.code = code := by simpa using List.find?_some hc
      split
      · next hv =>
        have hk : ∃ k ∈ t.e.conflictos, k.code = code ∧ valor ∈ k.opcionesQty :=
          ⟨c, hmem, hcode, hv⟩
        split
        · next hln => exact .nueva _ (h0.quita _) hln rfl hk
        · next ln hln =>
          have hln' : t.e.linea code = some ln := hln
          obtain rfl := linea_code hln'
          exact .fija _ (h0.quita _) hln' ⟨rfl, rfl, hk⟩
      · exact .quieto (h0.descarta _)
  | confirmar =>
    simp only [paso]
    split
    · exact .quieto (h0.emit rfl)
    · next v hv => exact ejecuta_efecto hv
  | _ => exact .quieto (paso_quieto fm t rfl)

/-! ## The codes of the cart -/

/-- The code an operation names for a line of its own. -/
def Op.codigo? : Op → Option Texto
  | .add code _ _ _ _ => some code
  | .elige _ code _ _ _ => some code
  | .eligeQty code _ => some code
  | _ => none

theorem Op.Pide.codigo {e : Estado} {code : Texto} {qty : Option ℤ} {op : Op}
    (h : op.Pide e code qty) : op.codigo? = some code := by
  cases op <;> simp_all [Op.Pide, Op.codigo?]

def Estado.codes (e : Estado) : List Texto := e.cart.map Linea.code

def Propuesta.codes (p : Propuesta) : List Texto := p.items.map Linea.code

theorem ponQty_codes (code : Texto) (q : ℤ) (cart : List Linea) :
    (ponQty code q cart).map Linea.code = cart.map Linea.code := by
  induction cart with
  | nil => rfl
  | cons l cart ih => by_cases h : l.code = code <;> simp [ponQty, h, ih]

theorem filter_codes_subset (p : Linea → Bool) (cart : List Linea) :
    (cart.filter p).map Linea.code ⊆ cart.map Linea.code :=
  List.map_subset _ (List.filter_subset_self cart)

theorem Quieto.codes {t u : Trabajo} (h : Quieto t u) : u.e.codes = t.e.codes := by
  simp only [Estado.codes, h.cart]

theorem Trabajo.add_codes (t : Trabajo) (code name brand : Texto) (qty : Option ℤ)
    (fuente aliasTexto : Texto) {c : Texto}
    (h : c ∈ (t.add code name brand qty fuente aliasTexto).e.codes) : c ∈ t.e.codes ∨ c = code := by
  rcases t.add_cases code name brand qty fuente aliasTexto with
    ⟨ln, -, -, he⟩ | ⟨ln, q, -, -, -, he⟩ | ⟨-, he⟩
  all_goals rw [he] at h
  · exact Or.inl h
  · exact Or.inl h
  · simpa [addNueva, Estado.codes] using h

theorem addLineas_codes (fuente : Texto) (items : List Linea) (t : Trabajo) {c : Texto}
    (h : c ∈ (items.foldl (Trabajo.addLinea fuente) t).e.codes) :
    c ∈ t.e.codes ∨ c ∈ items.map Linea.code := by
  induction items generalizing t with
  | nil => exact Or.inl h
  | cons l items ih =>
    rcases ih _ h with h | h
    · rcases t.add_codes _ _ _ _ _ _ h with h | rfl
      · exact Or.inl h
      · exact Or.inr List.mem_cons_self
    · exact Or.inr (List.mem_cons_of_mem _ h)

/-- Where a code of the cart comes from in one operation. -/
theorem paso_codes (fm : Bool) (t : Trabajo) (op : Op) {c : Texto}
    (h : c ∈ (paso fm t op).e.codes) :
    c ∈ t.e.codes ∨ op.codigo? = some c ∨
      (op = .confirmar ∧ ∃ v, t.e.siNoVivo = some v ∧ v.tipo.deLineas ∧ c ∈ v.codes) := by
  generalize hp : paso fm t op = t' at h
  have hef : Efecto t op t' := hp ▸ paso_efecto fm t op
  cases hef with
  | quieto hq => exact Or.inl (hq.codes ▸ h)
  | aparta => exact Or.inl h
  | dice => exact Or.inl h
  | add name brand fuente al hu hop =>
    rcases Trabajo.add_codes _ _ _ _ _ _ _ h with h | rfl
    · exact Or.inl (hu.codes ▸ h)
    · exact Or.inr (Or.inl hop.codigo)
  | fija name hu hln hop =>
    refine Or.inl (hu.codes ▸ ?_)
    rw [Estado.codes, ← ponQty_codes]
    exact h
  | @nueva u code q name hu hln hop hq =>
    have hc : c ∈ u.e.codes ∨ c = code := by
      simpa [Estado.codes, Trabajo.enMarcha] using h
    rcases hc with hc | rfl
    · exact Or.inl (hu.codes ▸ hc)
    · exact Or.inr (Or.inl (by rw [hop]; rfl))
  | borra name hu hop => exact Or.inl (hu.codes ▸ filter_codes_subset _ _ h)
  | lineas fuente hu hop hv ht =>
    rcases addLineas_codes _ _ _ h with h | h
    · exact Or.inl (hu.codes ▸ h)
    · exact Or.inr (Or.inr ⟨hop, _, hv, ht, h⟩)
  | cierra hu hop hv ht rs => exact Or.inl (hu.codes ▸ h)

/-! ## The order status -/

theorem Trabajo.add_closed (t : Trabajo) (code name brand : Texto) (qty : Option ℤ)
    (fuente aliasTexto : Texto)
    (h : (t.add code name brand qty fuente aliasTexto).e.orderStatus = .closed) :
    t.e.orderStatus = .closed := by
  rcases t.add_cases code name brand qty fuente aliasTexto with
    ⟨ln, -, -, he⟩ | ⟨ln, q, -, -, -, he⟩ | ⟨-, he⟩
  all_goals rw [he] at h
  · exact h
  · exact h
  · by_contra hne
    simp [addNueva, statusTrasLinea, hne] at h

theorem addLineas_closed (fuente : Texto) (items : List Linea) (t : Trabajo)
    (h : (items.foldl (Trabajo.addLinea fuente) t).e.orderStatus = .closed) :
    t.e.orderStatus = .closed := by
  induction items generalizing t with
  | nil => exact h
  | cons l items ih => exact t.add_closed _ _ _ _ _ _ (ih _ h)

/-- Only the confirmation of a close proposal closes the order. -/
theorem paso_closed (fm : Bool) (t : Trabajo) (op : Op)
    (h : (paso fm t op).e.orderStatus = .closed) :
    t.e.orderStatus = .closed ∨
      (op = .confirmar ∧ ∃ v, t.e.siNoVivo = some v ∧ v.tipo = .cierre) := by
  generalize hp : paso fm t op = t' at h
  have hef : Efecto t op t' := hp ▸ paso_efecto fm t op
  cases hef with
  | quieto hq => exact Or.inl (hq.orderStatus ▸ h)
  | aparta => exact Or.inl h
  | dice => exact Or.inl h
  | add name brand fuente al hu hop =>
    exact Or.inl (hu.orderStatus ▸ Trabajo.add_closed _ _ _ _ _ _ _ h)
  | fija name hu hln hop => exact Or.inl (hu.orderStatus ▸ h)
  | nueva name hu hln hop hq =>
    refine Or.inl (hu.orderStatus ▸ ?_)
    by_contra hne
    simp [Trabajo.enMarcha, hne] at h
  | borra name hu hop => exact Or.inl (hu.orderStatus ▸ h)
  | lineas fuente hu hop hv ht => exact Or.inl (hu.orderStatus ▸ addLineas_closed _ _ _ h)
  | cierra hu hop hv ht rs => exact Or.inr ⟨hop, _, hv, ht⟩

/-! ## Pass 2 on the cart and the status -/

theorem reglaMedia_cart (t : Trabajo) : (reglaMedia t).e.cart = t.e.cart := by
  unfold reglaMedia
  split
  · rfl
  · dsimp only
    rcases t.nuevaSiNo_cases _ .media with ⟨v, -, he⟩ | ⟨-, he⟩ <;> rw [he] <;> rfl

theorem reglaMedia_orderStatus (t : Trabajo) :
    (reglaMedia t).e.orderStatus = t.e.orderStatus := by
  unfold reglaMedia
  split
  · rfl
  · dsimp only
    rcases t.nuevaSiNo_cases _ .media with ⟨v, -, he⟩ | ⟨-, he⟩ <;> rw [he] <;> rfl

theorem regla3_orderStatus (t : Trabajo) : (regla3 t).e.orderStatus = t.e.orderStatus := by
  refine foldl_component (f := fun t : Trabajo => t.e.orderStatus) _ (fun t p _ => ?_) t
  unfold regla3Una
  dsimp only
  split <;> rfl

theorem regla11_orderStatus (t : Trabajo) : (regla11 t).e.orderStatus = t.e.orderStatus := by
  unfold regla11
  split
  · rfl
  · refine foldl_component (f := fun t : Trabajo => t.e.orderStatus) _ (fun t c _ => ?_) t
    unfold regla11Linea
    split <;> rfl

theorem pase2_orderStatus (t : Trabajo) : (pase2 t).e.orderStatus = t.e.orderStatus :=
  (regla11_orderStatus _).trans ((regla3_orderStatus _).trans (reglaMedia_orderStatus t))

theorem regla3_codes (t : Trabajo) : (regla3 t).e.codes ⊆ t.e.codes := by
  refine foldl_keeps (P := fun u : Trabajo => u.e.codes ⊆ t.e.codes) _ (fun u p _ hu => ?_)
    (List.Subset.refl _)
  unfold regla3Una
  dsimp only
  split
  · exact List.Subset.trans (filter_codes_subset _ _) hu
  · exact hu

theorem regla11_codes (t : Trabajo) : (regla11 t).e.codes = t.e.codes := by
  unfold regla11
  split
  · rfl
  · refine foldl_component (f := fun t : Trabajo => t.e.codes) _ (fun t c _ => ?_) t
    unfold regla11Linea
    split
    · rfl
    · exact ponQty_codes ..

theorem pase2_codes (t : Trabajo) : (pase2 t).e.codes ⊆ t.e.codes := by
  intro c hc
  have h3 : c ∈ (regla3 (reglaMedia t)).e.codes := regla11_codes (regla3 (reglaMedia t)) ▸ hc
  have hm := regla3_codes _ h3
  rwa [Estado.codes, reglaMedia_cart] at hm

/-! ## Whole turns -/

/-- The locals after the operations `xs` of a turn. -/
def tras (fm : Bool) (e : Estado) (g : Option ℤ) (xs : List Op) : Trabajo :=
  pase1 fm (inicio e g) xs

@[simp] theorem tras_nil (fm : Bool) (e : Estado) (g : Option ℤ) : tras fm e g [] = inicio e g :=
  rfl

theorem tras_concat (fm : Bool) (e : Estado) (g : Option ℤ) (xs : List Op) (op : Op) :
    tras fm e g (xs ++ [op]) = paso fm (tras fm e g xs) op := by
  simp [tras, pase1]

theorem aplicar_estado (e : Estado) (ops : List Op) (fm : Bool) (g : Option ℤ) :
    (aplicar e ops fm g).estado = (pase2 (tras fm e g ops)).e := by
  unfold aplicar
  dsimp only
  split <;> rfl

end Chatlink.Agent
