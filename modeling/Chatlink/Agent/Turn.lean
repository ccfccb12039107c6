import Chatlink.Agent.Reducer
import Chatlink.Agent.Resolver

/-!
# A whole turn

`runAgent` is the pipeline of `run_agent`: stage 0, the extraction (whose answer is a
parameter), the acts built by code, the resolver and the reducer. `Sesion.tras` is
what `run_turn` does with its result: the session keeps the state, a closed order
leaves a `KapaOrder`, and the turn after a close starts afresh. The reply text is left
out; it is built from the facts.
-/
namespace Chatlink.Agent

/-! ## The stored session -/

/-- An option of an item in the format before the typed items. -/
structure OpcionAntigua where
  code : Texto
  codigo : Texto
  name : Texto
  nombre : Texto
  brand : Texto
  marca : Texto
  distintivo : Texto
  deriving DecidableEq

/-- An entry of `open_items` as it is stored. -/
inductive ItemGuardado where
  | tipado (i : Item)
  | antiguo (texto pedido consulta : Texto) (opciones : List OpcionAntigua)
      (qty cantidad : Option ℤ) (rechazados : List Texto)
  | ajeno
  deriving DecidableEq

/-- `_coerce_open_item`. -/
def coerceOpenItem : ItemGuardado → Option Item
  | .tipado i => some i
  | .antiguo texto pedido consulta opciones qty cantidad rechazados =>
    let texto := Texto.strip (Texto.orElse texto (Texto.orElse pedido consulta))
    if texto.isEmpty then none
    else some (.producto
      { texto := texto
        qty := qty.orElse fun _ => cantidad
        opciones := opciones.map fun o =>
          ⟨Texto.orElse o.code o.codigo, Texto.orElse o.name o.nombre,
            Texto.orElse o.brand o.marca, [], [], o.distintivo⟩
        rechazados := rechazados })
  | .ajeno => none

/-- The columns of a session the agent reads and writes. -/
structure Sesion where
  orderStatus : OrderStatus := .idle
  cart : List Linea := []
  openItems : List ItemGuardado := []
  lastClosedCart : List Linea := []
  deriving DecidableEq

/-- A line as `from_session` reads it: no quantity counts as 1, the brand is not read. -/
def lineaLeida (l : Linea) : Linea := { l with qty := orNum (some l.qty) 1, brand := [] }

def Estado.fromSession (s : Sesion) : Estado where
  orderStatus := s.orderStatus
  cart := (s.cart.filter fun l => !l.code.isEmpty).map lineaLeida
  openItems := s.openItems.filterMap coerceOpenItem
  lastClosedCart := s.lastClosedCart

/-! ## The acts of a turn -/

variable (U : Unicode)

/-- `bool(data.get("hablar", True))`. -/
def hablarDe : Json → Bool
  | .obj data => match data.lookup ("hablar" : Texto) with
    | some v => v.truthy
    | none => true
  | _ => true

/-- `_extraer`, given the answer of the extraction; `none` is a failed call. -/
def extraer (extraccion : Option Json) (mensaje : Texto) :
    Except PyError (Option (List Acto) × Bool) :=
  match extraccion with
  | none => .ok (none, true)
  | some data => do
    let actos ← parseActos U data
    return (some (validarActos U actos mensaje), hablarDe data)

/-- The bare number of a short text, if a live conflict offers it. -/
def numeroSuelto (texto : Texto) (e : Estado) : Option Texto :=
  let limpio := if (Texto.strip texto).length ≤ 12 then
    texto.filter fun c => '0' ≤ c && c ≤ '9' else []
  let n : ℤ := U.numberOf limpio
  if U.isdigit limpio && e.conflictos.any fun c => c.opcionesQty.contains n then some limpio
  else none

/-- `_actos_estructurales`: what is saved when the extraction sees no act. -/
def actosEstructurales (texto : Texto) (e : Estado) : List Acto :=
  (codesInText U texto).map (fun c => { tipo := .pedir, productoTexto := c, evidencia := c }) ++
    (numeroSuelto U texto e).toList.map fun n =>
      { tipo := .elegir, objetivoTexto := n, evidencia := n }

/-- The act of a line of a list. -/
def actoDeLista (r : Texto × Option ℤ × Texto) : Acto :=
  { tipo := .pedir, productoTexto := r.1, evidencia := r.2.2,
    cantidad := match r.2.1 with
      | some q => ⟨.total, some q⟩
      | none => {} }

/-- The acts of the list together with those of the extraction. The acts saved by their
form stand in when both are empty; `none` is a failed extraction with nothing else. -/
def reuneActos (lista : List Acto) (extraidos : Option (List Acto)) (salvados : List Acto) :
    Option (List Acto) :=
  let actos :=
    if (extraidos.getD []).isEmpty && lista.isEmpty then
      if salvados.isEmpty then extraidos else some salvados
    else extraidos
  match actos with
  | none => if lista.isEmpty then none else some lista
  | some as => some (lista ++ as)

/-- Stage 1: the extraction is called only when language is left to interpret. -/
def comprende (mensaje : Texto) (extraccion : Option Json) :
    Except PyError (Option (List Acto) × Bool) :=
  let pre := preprocesar U mensaje
  if pre.texto.isEmpty then .ok (some [], true) else extraer U extraccion pre.texto

/-- The acts of the message and whether to speak. -/
def actosDelTurno (e : Estado) (mensaje : Texto) (extraccion : Option Json) :
    Except PyError (Option (List Acto) × Bool) := do
  let (extraidos, hablar) ← comprende U mensaje extraccion
  let pre := preprocesar U mensaje
  let salvados := actosEstructurales U (Texto.orElse pre.texto mensaje) e
  return (reuneActos (pre.pedidos.map actoDeLista) extraidos salvados, hablar)

/-! ## The turn -/

/-- What reaches the reducer, and what the reply depends on. -/
structure Turno where
  estado : Estado
  ops : List Op := []
  fuenteMedia : Bool := false
  cantidadGlobal : Option ℤ := none
  hablar : Bool := true
  sinActos : Bool := false

inductive Desenlace where
  /-- Nothing to answer. -/
  | nada
  /-- The extraction failed and nothing could be saved. -/
  | inferenceDown
  | turno (t : Turno)

def turnoDe (E : Entorno) (s : Sesion) (mensaje : Texto) (extraccion : Option Json) :
    Except PyError Desenlace :=
  let e := Estado.fromSession s
  let pre := preprocesar U mensaje
  if pre.texto.isEmpty && pre.pedidos.isEmpty && pre.cantidadGlobal.isNone && !pre.fuenteMedia then
    .ok .nada
  else do
    match ← actosDelTurno U e mensaje extraccion with
    | (none, _) => return .inferenceDown
    | (some [], hablar) => return .turno { estado := e, hablar := hablar, sinActos := true }
    | (some actos, hablar) =>
      let (ops, e') ← resolver U E actos e
      return .turno
        { estado := e', ops := ops, fuenteMedia := pre.fuenteMedia,
          cantidadGlobal := pre.cantidadGlobal, hablar := hablar }

def Turno.resultado (t : Turno) : ResultadoTurno :=
  aplicar t.estado t.ops t.fuenteMedia t.cantidadGlobal

/-- Facts about small talk or about a topic of the salesman. -/
def Hecho.noPedido : Hecho → Bool
  | .cortesia _ => true
  | .derivacion _ => true
  | _ => false

/-- The facts the reply is built from; `intro` is a turn of presentation and `resume`
comes back to a half-made order. -/
def Turno.hechos (t : Turno) (intro resume : Bool) : List Hecho :=
  let r := t.resultado
  if t.sinActos then if intro then r.hechos else .sinEntender :: r.hechos
  else if !t.hablar && !r.hechos.isEmpty && r.hechos.all Hecho.noPedido && !intro then []
  else if resume && !r.estado.cart.isEmpty && !r.hechos.contains .recapPedido then
    r.hechos ++ [.recapPedido]
  else r.hechos

structure AgentResult where
  estado : Estado
  hechos : List Hecho := []
  inferenceDown : Bool := false

def runAgent (E : Entorno) (s : Sesion) (mensaje : Texto) (extraccion : Option Json)
    (intro resume : Bool) : Except PyError AgentResult := do
  match ← turnoDe U E s mensaje extraccion with
  | .nada => return { estado := Estado.fromSession s }
  | .inferenceDown => return { estado := Estado.fromSession s, inferenceDown := true }
  | .turno t => return { estado := t.resultado.estado, hechos := t.hechos intro resume }

/-! ## The session after a turn -/

/-- A closed order as it is written for the salesman. -/
structure KapaOrder where
  cart : List Linea
  review : List (Texto × Option ℤ)
  deriving DecidableEq

/-- What a turn works on; `adelantado` says that the salesman wrote meanwhile. -/
structure Entrada where
  entorno : Entorno
  mensaje : Texto
  extraccion : Option Json
  intro : Bool := false
  resume : Bool := false
  adelantado : Bool := false

/-- The cart of a closed order is kept as the last one. -/
def Sesion.archiva (s : Sesion) : Sesion :=
  if s.orderStatus = .closed ∧ s.cart ≠ [] then { s with lastClosedCart := s.cart } else s

/-- The session the agent is given: only a closed order starts a fresh cart. -/
def Sesion.paraElAgente (s : Sesion) : Sesion :=
  if s.orderStatus = .closed then { lastClosedCart := s.lastClosedCart } else s

/-- The columns written with the result of the agent. -/
def Sesion.tras (s : Sesion) (e : Estado) : Sesion where
  orderStatus := e.orderStatus
  cart := e.cart
  openItems := e.openItems.map .tipado
  lastClosedCart := if e.orderStatus = .closed then e.cart else s.lastClosedCart

/-- `run_turn` from the call of the agent on. `none` raises: nothing is written and the
loop tries again later. -/
def runTurn (s : Sesion) (x : Entrada) : Option (Sesion × Option KapaOrder) :=
  let s := s.archiva
  match runAgent U x.entorno s.paraElAgente x.mensaje x.extraccion x.intro x.resume with
  | .error _ => none
  | .ok r =>
    if r.inferenceDown then none
    else if x.adelantado then some (s, none)
    else some (s.tras r.estado,
      if r.estado.orderStatus = .closed then some ⟨r.estado.cart, r.estado.aRevisar⟩ else none)

end Chatlink.Agent
