import Chatlink.Agent.State

/-!
# The reducer

`aplicar` is the only writer of the cart and the open items. Its local variables
are the fields of `Trabajo`; pass 1 is a fold of `paso` over the operations and
pass 2 is the sequence of the transversal rules.
-/
namespace Chatlink.Agent

/-- `PIPE_MAX_INTENTOS_PRODUCTO`, at its default. -/
def maxIntentosProducto : ℕ := 2

/-- The mutable locals of `aplicar`. -/
structure Trabajo where
  e : Estado
  hechos : List Hecho := []
  descartes : List Descarte := []
  addedNoQty : List Texto := []
  seenAdds : List (Texto × List (Option ℤ)) := []
  mediaBatch : List (Texto × Texto × Option ℤ × Texto) := []
  cantidadGlobal : Option ℤ := none

/-- The first line of `code` gets quantity `q`. -/
def ponQty (code : Texto) (q : ℤ) : List Linea → List Linea
  | [] => []
  | l :: ls => if l.code = code then { l with qty := q } :: ls else l :: ponQty code q ls

/-- The first open product with this text is replaced by its image under `f`. -/
def cambiaProducto (texto : Texto) (f : Producto → Producto) : List Item → List Item
  | [] => []
  | .producto p :: is =>
    if p.texto = texto then .producto (f p) :: is
    else .producto p :: cambiaProducto texto f is
  | i :: is => i :: cambiaProducto texto f is

/-- `seen_adds.setdefault(code, []).append(qty)`. -/
def anotaAdd (code : Texto) (qty : Option ℤ) :
    List (Texto × List (Option ℤ)) → List (Texto × List (Option ℤ))
  | [] => [(code, [qty])]
  | (c, qs) :: rest => if c = code then (c, qs ++ [qty]) :: rest else (c, qs) :: anotaAdd code qty rest

/-- `sorted(set(xs))`. -/
def sortedSet (xs : List ℤ) : List ℤ := xs.dedup.insertionSort (· ≤ ·)

/-- The quantity a `modificar` leads to. -/
def nuevaQty (modo : Modo) (actual v : ℤ) : ℤ :=
  match modo with
  | .total => v
  | .incremento => actual + v
  | .decremento => actual - v
  | _ => actual

def quitaConflictos (code : Texto) (items : List Item) : List Item :=
  items.filter fun i => !i.conflictoDe code

namespace Trabajo

def emit (t : Trabajo) (h : Hecho) : Trabajo := { t with hechos := t.hechos ++ [h] }

def descarta (t : Trabajo) (d : Descarte) : Trabajo := { t with descartes := t.descartes ++ [d] }

def conEstado (t : Trabajo) (e : Estado) : Trabajo := { t with e := e }

/-- Removes the first item equal to `i`, as `open_items.remove` does. -/
def quita (t : Trabajo) (i : Item) : Trabajo :=
  t.conEstado { t.e with openItems := t.e.openItems.erase i }

def abre (t : Trabajo) (i : Item) : Trabajo :=
  t.conEstado { t.e with openItems := t.e.openItems ++ [i] }

/-- `"BUILDING" if e.order_status != "CLOSED" else e.order_status`. -/
def enMarcha (t : Trabajo) : Trabajo :=
  t.conEstado { t.e with
    orderStatus := if t.e.orderStatus = .closed then .closed else .building }

/-- Rule 10: a single live yes/no proposal. The flag tells whether it was opened. -/
def nuevaSiNo (t : Trabajo) (p : Propuesta) (titulo : Titulo) : Trabajo × Bool :=
  match t.e.siNoVivo with
  | some _ => (t.descarta (.siNoDuplicada p.tipo), false)
  | none => ((t.abre (.siNo p)).emit (.propuesta p.tipo p.items titulo), true)

def setQty (t : Trabajo) (code name : Texto) (modo : Modo) (valor : Option ℤ) : Trabajo :=
  match t.e.linea code with
  | none =>
    (t.descarta (.modificarFueraDeCarrito code)).emit
      (.referenciaAmbigua (name.orElse code) [])
  | some ln =>
    let actual := ln.qty
    let nombre := Texto.orElse ln.name name
    match valor with
    | none => t.emit (.sinCambioConfirmado code nombre actual)
    | some v =>
      if modo = .sinCambio then t.emit (.sinCambioConfirmado code nombre actual)
      else
        let nuevo := nuevaQty modo actual v
        if nuevo ≤ 0 then
          -- D7: nothing is written; the generic proposal fact is replaced by the question.
          match t.nuevaSiNo { tipo := .baja, code := code, name := nombre } .ninguno with
          | (t', true) =>
            { t' with hechos := t'.hechos.dropLast }.emit (.preguntaBaja code nombre)
          | (t', false) => t'
        else
          (t.conEstado { t.e with cart := ponQty code nuevo t.e.cart }).emit
            (.actualizado code nombre nuevo)

/-- `_a_revisar`: a product stops being asked and becomes a review line. -/
def mandaRevisar (t : Trabajo) (p : Producto) : Trabajo :=
  ((t.quita (.producto p)).abre (.revisar p.texto p.qty)).emit (.aRevisar p.texto)

def add (t : Trabajo) (code name brand : Texto) (qty : Option ℤ) (fuente aliasTexto : Texto) :
    Trabajo :=
  let t := { t with seenAdds := anotaAdd code qty t.seenAdds }
  match t.e.linea code with
  | some ln =>
    let actual := ln.qty
    let nombre := Texto.orElse ln.name name
    match qty with
    | none => t.emit (.sinCambioConfirmado code nombre actual)
    | some q =>
      if q = actual then t.emit (.sinCambioConfirmado code nombre actual)
      else
        -- D2: another number for a code already in the cart; nobody adds up but the code.
        let opcionesQty := sortedSet [q, actual, q + actual]
        (t.conEstado { t.e with openItems := quitaConflictos code t.e.openItems ++
          [.conflicto ⟨code, nombre, opcionesQty⟩] }).emit
          (.conflictoCantidad code nombre opcionesQty)
  | none =>
    let q := qty.getD 1
    let t := t.conEstado { t.e with cart := t.e.cart ++ [⟨code, q, name, fuente, brand⟩] }
    let t := if qty = none then { t with addedNoQty := t.addedNoQty ++ [code] } else t
    t.enMarcha.emit (.confirmado code name q (fuente = ("codigo_cliente" : Texto)) aliasTexto)

/-- A line of a confirmed proposal. -/
def addLinea (fuente : Texto) (t : Trabajo) (l : Linea) : Trabajo :=
  t.add l.code l.name [] (some (orNum (some l.qty) 1)) fuente []

end Trabajo

/-- The line of a `propuesta_repetir`: `int(qo or c.get("qty") or 1)`. -/
def lineaRepetida (qo : Option ℤ) (c : Linea) : Linea :=
  ⟨c.code, orNum qo (orNum (some c.qty) 1), c.name, [], []⟩

/-- What `confirmar` does with the proposal it takes out of the open items. -/
def ejecuta (t : Trabajo) (vivo : Propuesta) : Trabajo :=
  match vivo.tipo with
  | .cierre =>
    let t := t.e.productosAbiertos.foldl
      (fun t p => (t.quita (.producto p)).abre (.revisar p.texto p.qty)) t
    let t := t.conEstado { t.e with orderStatus := .closed }
    t.emit (.cerrado t.e.cart (t.e.aRevisar.map Prod.fst))
  | .baja =>
    match t.e.linea vivo.code with
    | some _ =>
      (t.conEstado { t.e with cart := t.e.cart.filter fun l => l.code ≠ vivo.code }).emit
        (.eliminado vivo.code vivo.name)
    | none => t
  | .media => vivo.items.foldl (Trabajo.addLinea "media") t
  | .repetir => vivo.items.foldl (Trabajo.addLinea "repetir") t

/-- The `otro` branch. -/
def pasoOtro (t : Trabajo) : Subtipo → Trabajo
  | .noSabe =>
    let pendientes := t.e.productosAbiertos
    if pendientes.isEmpty then t.emit (.cortesia .confirmacionSinPregunta)
    else pendientes.foldl Trabajo.mandaRevisar t
  | .escalada => t.emit .avisoComercial
  | .pideComercial => t.emit .avisoComercial
  | .rechazoBot => t.emit .optOut
  | .precioStockFactura => t.emit (.derivacion (.subtipo .precioStockFactura))
  | .especificacion => t.emit (.derivacion (.subtipo .especificacion))
  | .queja => t.emit (.derivacion (.subtipo .queja))
  | .fueraAmbito => t.emit (.derivacion (.subtipo .fueraAmbito))
  | .estadoPedido => t.emit .recapPedido
  | s => t.emit (.cortesia (.subtipo s))

/-- The product a `rechazo` is about: the one named, or the only one open. -/
def objetivoRechazo (items : List Producto) (objetivo : Option Texto) : Option Producto :=
  match items.find? fun p => some p.texto = objetivo with
  | some p => some p
  | none => match items with
    | [p] => some p
    | _ => none

/-- `sorted(set(rechazados) | codes of the options)`. -/
def unionRechazados (p : Producto) : List Texto :=
  ((p.rechazados ++ (p.opciones.map Opcion.code).filter fun c => !c.isEmpty).dedup).insertionSort
    (fun a b => a ≤ b)

/-- Pass 1: one operation. -/
def paso (fuenteMedia : Bool) (t : Trabajo) : Op → Trabajo
  | .add code name brand qty fuente =>
    if fuenteMedia then { t with mediaBatch := t.mediaBatch ++ [(code, name, qty, fuente)] }
    else t.add code name brand qty fuente []
  | .modificar code name modo valor eliminarConNumeral valorNumeral =>
    if modo = .eliminar then
      match t.e.linea code with
      | none => t.descarta (.eliminarFueraDeCarrito code)
      | some ln =>
        if eliminarConNumeral then
          t.emit (.preguntaEliminarORestar ln.code ln.name (orNum valorNumeral 1))
        else
          (t.conEstado { t.e with cart := t.e.cart.filter fun l => l.code ≠ ln.code }).emit
            (.eliminado ln.code ln.name)
    else t.setQty code name modo valor
  | .opciones texto qty ops indistinguibles =>
    let t := match t.e.productosAbiertos.find? fun p => p.texto = texto with
      | some _ => t
      | none => t.abre (.producto { texto := texto, qty := qty, nuevo := true })
    let f : Producto → Producto := fun p =>
      { p with qty := qty.orElse fun _ => p.qty
               opciones := ops.filter fun o => !p.rechazados.contains o.code }
    let t := t.conEstado { t.e with openItems := cambiaProducto texto f t.e.openItems }
    match t.e.productosAbiertos.find? fun p => p.texto = texto with
    | some p => t.emit (.preguntaOpciones p.texto p.qty p.opciones indistinguibles)
    | none => t
  | .sinCandidatos texto qty =>
    let t := match t.e.productosAbiertos.find? fun p => p.texto = texto with
      | some _ => t
      | none => t.abre (.producto { texto := texto, qty := qty, nuevo := true })
    t.emit (.sinCandidatos texto)
  | .codigoNoExiste code => t.emit (.codigoNoExiste code)
  | .rechazo objetivo =>
    match objetivoRechazo t.e.productosAbiertos objetivo with
    | none =>
      (t.descarta .rechazoSinItem).emit
        (.referenciaAmbigua ((objetivo.getD []).orElse "eso")
          (t.e.productosAbiertos.map Producto.texto))
    | some p =>
      let f : Producto → Producto := fun p =>
        { p with rechazados := unionRechazados p, opciones := [] }
      (t.conEstado { t.e with openItems := cambiaProducto p.texto f t.e.openItems }).emit
        (.rechazoRegistrado p.texto)
  | .elige itemTexto code name brand fuente =>
    -- rule 6: the line inherits the quantity of the item it answers.
    match t.e.productosAbiertos.find? fun p => p.texto = itemTexto with
    | some p => (t.quita (.producto p)).add code name brand p.qty fuente itemTexto
    | none => t.add code name brand none fuente itemTexto
  | .eligeQty code valor =>
    match t.e.conflictos.find? fun c => c.code = code with
    | none => t.descarta (.eligeQtyInvalido code valor)
    | some c =>
      if valor ∈ c.opcionesQty then
        let t := t.quita (.conflicto c)
        match t.e.linea code with
        | none =>
          (t.conEstado { t.e with cart := t.e.cart ++ [⟨code, valor, c.name, [], []⟩] }).enMarcha.emit
            (.confirmado code c.name valor false [])
        | some ln =>
          (t.conEstado { t.e with cart := ponQty code valor t.e.cart }).emit
            (.actualizado code ln.name valor)
      else t.descarta (.eligeQtyInvalido code valor)
  | .referenciaAmbigua texto candidatas => t.emit (.referenciaAmbigua texto candidatas)
  | .cantidadGlobal valor =>
    match valor with
    | some n => if n = 0 then t else { t with cantidadGlobal := some n }
    | none => t
  | .repetirUltimo qo =>
    if t.e.lastClosedCart.isEmpty then t.emit (.derivacion .repetirSinHistorial)
    else
      let items := (t.e.lastClosedCart.filter fun c => !c.code.isEmpty).map (lineaRepetida qo)
      (t.nuevaSiNo { tipo := .repetir, items := items } .repetir).1
  | .cerrar =>
    if t.e.cart.isEmpty && t.e.productosAbiertos.isEmpty && t.e.aRevisar.isEmpty then
      t.emit .sinEntender
    else (t.nuevaSiNo { tipo := .cierre, items := t.e.cart } .cierre).1
  | .confirmar =>
    match t.e.siNoVivo with
    | none => t.emit (.cortesia .confirmacionSinPregunta)
    | some vivo => ejecuta (t.quita (.siNo vivo)) vivo
  | .negar =>
    match t.e.siNoVivo with
    | none => t.emit (.cortesia .confirmacionSinPregunta)
    | some vivo => (t.quita (.siNo vivo)).emit (.propuestaRetirada vivo.tipo)
  | .otro subtipo => pasoOtro t subtipo

/-- Pass 1 over a whole list. -/
def pase1 (fuenteMedia : Bool) (t : Trabajo) (ops : List Op) : Trabajo :=
  ops.foldl (paso fuenteMedia) t

/-! ## Pass 2 -/

/-- Media: the resolved adds become a proposal, an absent quantity being 1. -/
def reglaMedia (t : Trabajo) : Trabajo :=
  if t.mediaBatch.isEmpty then t
  else
    let items := t.mediaBatch.map fun (code, name, qty, fuente) =>
      (⟨code, qty.getD 1, name, fuente, []⟩ : Linea)
    (t.nuevaSiNo { tipo := .media, items := items } .media).1

/-- A fact that says the quantity of `code`. -/
def Hecho.diceQty (code : Texto) : Hecho → Bool
  | .confirmado c _ _ _ _ => c = code
  | .actualizado c _ _ => c = code
  | .sinCambioConfirmado c _ _ => c = code
  | _ => false

/-- The distinct numbers asked for one code in this message. -/
def distintas (qtys : List (Option ℤ)) : List ℤ := sortedSet (qtys.filterMap id)

/-- Rule 3 for one code: two different numbers in one message suspend the line. -/
def regla3Una (t : Trabajo) (entrada : Texto × List (Option ℤ)) : Trabajo :=
  let code := entrada.1
  let ds := distintas entrada.2
  if 1 < ds.length then
    let opcionesQty := sortedSet (ds ++ [ds.sum])
    let name := match t.e.linea code with
      | some ln => Texto.orElse ln.name code
      | none => code
    let t := { t with
      e := { t.e with
        cart := t.e.cart.filter fun l => l.code ≠ code
        openItems := quitaConflictos code t.e.openItems ++
          [Item.conflicto ⟨code, name, opcionesQty⟩] }
      hechos := t.hechos.filter fun h => !h.diceQty code }
    t.emit (.conflictoCantidad code name opcionesQty)
  else t

def regla3 (t : Trabajo) : Trabajo := t.seenAdds.foldl regla3Una t

/-- Rule 11 on one line of this turn that came without a quantity. -/
def regla11Linea (g : ℤ) (t : Trabajo) (code : Texto) : Trabajo :=
  match t.e.linea code with
  | none => t
  | some ln =>
    (t.conEstado { t.e with cart := ponQty code g t.e.cart }).emit (.actualizado code ln.name g)

/-- Rule 11 on an open product without a quantity. -/
def regla11Item (g : ℤ) : Item → Item
  | .producto p => .producto { p with qty := p.qty.orElse fun _ => some g }
  | i => i

def regla11 (t : Trabajo) : Trabajo :=
  match t.cantidadGlobal with
  | none => t
  | some g =>
    let t := t.addedNoQty.foldl (regla11Linea g) t
    t.conEstado { t.e with openItems := t.e.openItems.map (regla11Item g) }

/-- Something of the order was settled this turn. -/
def Hecho.progreso : Hecho → Bool
  | .confirmado .. => true
  | .actualizado .. => true
  | .eliminado .. => true
  | .conflictoCantidad .. => true
  | .cerrado .. => true
  | .rechazoRegistrado .. => true
  | _ => false

/-- The question about the product `texto` was already emitted this turn. The source
keys a fact by its text, or by its code when the text is empty. -/
def Hecho.trata (texto : Texto) : Hecho → Bool
  | .preguntaOpciones t _ _ _ => !t.isEmpty && t = texto
  | .sinCandidatos t => !t.isEmpty && t = texto
  | .rechazoRegistrado t => !t.isEmpty && t = texto
  | _ => false

def Hecho.trataConflicto (code : Texto) : Hecho → Bool
  | .conflictoCantidad c _ _ => c = code
  | _ => false

/-- The attempts of a product after this turn. -/
def intentosTras (huboProgreso : Bool) (p : Producto) : ℕ :=
  if p.nuevo || huboProgreso then
    if huboProgreso then 0 else p.intentos.getD 0
  else p.intentos.getD 0 + 1

/-- Rule 7 on one open item: `ya` are the facts before the rule, `hs` the facts so far. -/
def regla7Item (huboProgreso : Bool) (ya hs : List Hecho) : Item → Item × List Hecho
  | .producto p =>
    let n := intentosTras huboProgreso p
    if maxIntentosProducto ≤ n then
      (.producto { p with intentos := some n, revisar := true }, hs ++ [.aRevisar p.texto])
    else
      let p' := { p with intentos := some n }
      if ya.any (Hecho.trata p.texto) then (.producto p', hs)
      else if p.opciones.isEmpty then (.producto p', hs ++ [.recordatorioPendiente p.texto])
      else (.producto p', hs ++ [.preguntaOpciones p.texto p.qty p.opciones false])
  | .conflicto c =>
    if ya.any (Hecho.trataConflicto c.code) then (.conflicto c, hs)
    else (.conflicto c, hs ++ [.conflictoCantidad c.code c.name c.opcionesQty])
  | .siNo p =>
    let dicha := hs.any fun h => match h with
      | .propuesta tipo _ _ => tipo = p.tipo
      | .preguntaBaja .. => true
      | .cerrado .. => true
      | _ => false
    if dicha then (.siNo p, hs)
    else if p.tipo = .baja then (.siNo p, hs ++ [.preguntaBaja p.code p.name])
    else (.siNo p, hs ++ [.propuesta p.tipo p.items .ninguno])
  | .revisar texto qty => (.revisar texto qty, hs)

def regla7Items (huboProgreso : Bool) (ya : List Hecho) :
    List Hecho → List Item → List Item × List Hecho
  | hs, [] => ([], hs)
  | hs, i :: is =>
    let r := regla7Item huboProgreso ya hs i
    let rest := regla7Items huboProgreso ya r.2 is
    (r.1 :: rest.1, rest.2)

def regla7 (t : Trabajo) : Trabajo :=
  let r := regla7Items (t.hechos.any Hecho.progreso) t.hechos t.hechos t.e.openItems
  { t with e := { t.e with openItems := r.1 }, hechos := r.2 }

/-- The exhausted products become review lines. -/
def agotados (items : List Item) : List Item :=
  (items.filterMap Item.producto?).filter Producto.revisar |>.foldl
    (fun is p => is.erase (.producto p) ++ [.revisar p.texto p.qty]) items

def Item.sinMarca : Item → Item
  | .producto p => .producto { p with nuevo := false }
  | i => i

def limpia (t : Trabajo) : Trabajo :=
  t.conEstado { t.e with openItems := (agotados t.e.openItems).map Item.sinMarca }

structure ResultadoTurno where
  estado : Estado
  hechos : List Hecho
  descartes : List Descarte

/-- The locals at the start of the turn. -/
def inicio (e : Estado) (cantidadGlobalPre : Option ℤ) : Trabajo :=
  { e := e, cantidadGlobal := cantidadGlobalPre }

/-- Pass 2 as a whole. -/
def pase2 (t : Trabajo) : Trabajo := limpia (regla7 (regla11 (regla3 (reglaMedia t))))

def aplicar (e : Estado) (ops : List Op) (fuenteMedia : Bool) (cantidadGlobalPre : Option ℤ) :
    ResultadoTurno :=
  let t := pase2 (pase1 fuenteMedia (inicio e cantidadGlobalPre) ops)
  let t := if !ops.isEmpty && t.hechos.isEmpty then t.emit .sinEntender else t
  ⟨t.e, t.hechos, t.descartes⟩

end Chatlink.Agent
