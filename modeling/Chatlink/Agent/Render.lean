import Chatlink.Agent.Reducer

/-!
# The reply

`render` builds the reply from the facts of a turn: confirmations, then questions, then notes. At
most `questionBudget` questions about products are asked in one reply, and the rest are counted. A
question is kept with the fact it asks about, so that what a reply asks can be told from its blocks.
-/
namespace Chatlink.Agent

/-- `PIPE_QUESTION_BUDGET`, at its default. -/
def questionBudget : ℕ := 2

def botSignature : Texto := "— Kapa 🤖"

/-- How the bot presents itself in this turn. -/
inductive IntroMode where
  | new
  | renew
  | ninguno
  deriving DecidableEq, Repr

/-- Whom the reply is for, besides the facts. -/
structure Carta where
  introMode : IntroMode
  clientName : Texto
  salesmanName : Texto
  commercialTurn : Bool

/-- A question about a product: it counts against the budget. -/
def Hecho.preguntaProducto : Hecho → Bool
  | .preguntaOpciones .. => true
  | .sinCandidatos _ => true
  | .rechazoRegistrado _ => true
  | .recordatorioPendiente _ => true
  | .referenciaAmbigua .. => true
  | _ => false

/-- A question of another kind. -/
def Hecho.otraPregunta : Hecho → Bool
  | .conflictoCantidad .. => true
  | .preguntaBaja .. => true
  | .preguntaEliminarORestar .. => true
  | .propuesta tipo _ _ => tipo ≠ .baja
  | .sinEntender => true
  | _ => false

variable (U : Unicode)

/-- `_n`. -/
def nombreDe (name code : Texto) : Texto := Texto.orElse (U.title (Texto.strip name)) code

/-- `_linea_producto`. -/
def lineaProducto (name : Texto) (qty : ℤ) (code : Texto) (marcado : Bool) : Texto :=
  nombreDe U name code ++ ", " ++ Texto.ofInt qty ++ " uds (" ++ code ++ ")" ++
    if marcado then " *" else ""

/-- `_saludo`; `none` is the `IndexError` of a name that is all white space. -/
def saludoDe (c : Carta) : Option Texto :=
  match c.introMode with
  | .new =>
    if c.clientName ≠ [] ∧ c.clientName ≠ ("Cliente" : Texto) then
      (Texto.split c.clientName).head?.map fun nombre =>
        "¡Hola, " ++ U.title nombre ++ "! Soy Kapa, el asistente de pedidos de " ++
          c.salesmanName ++ ". Te ayudo a dejar tu pedido apuntado y él lo confirma."
    else some ("¡Hola! Soy Kapa, el asistente de pedidos de " ++ c.salesmanName ++
      ". Te ayudo a dejar tu pedido apuntado y él lo confirma.")
  | .renew => some ("¡Hola de nuevo! Soy Kapa, el asistente de " ++ c.salesmanName ++ ".")
  | .ninguno => some []

def opcionDicha (o : Opcion) : Texto :=
  U.lower (Texto.strip (Texto.orElse o.distintivo (nombreDe U o.name o.code))) ++ " (" ++ o.code ++ ")"

/-- `"; ".join(...)` of the lines of a proposal. -/
def lineasDichas (items : List Linea) : Texto :=
  Texto.join "; " (items.map fun l => lineaProducto U l.name (orNum (some l.qty) 1) l.code false)

/-- What a close leaves for the salesman. -/
def pendientesDichos (salesman : Texto) (e : Estado) : Texto :=
  let pend := e.productosAbiertos.map Producto.texto ++ e.aRevisar.map Prod.fst
  if pend.isEmpty then ""
  else (" Lo que queda por concretar (" : Texto) ++ Texto.join ", " pend ++ ") se lo dejo anotado a " ++
    salesman ++ " para que lo revise."

/-- The text of a question. -/
def textoPregunta (salesman : Texto) (e : Estado) : Hecho → Texto
  | .preguntaOpciones texto qty opciones indistinguibles =>
    if indistinguibles then
      ("De \"" : Texto) ++ texto ++
        "\" tengo varias referencias con exactamente el mismo nombre, así que solo puedo " ++
        "distinguirlas por código: " ++ Texto.join ", " (opciones.map Opcion.code) ++
        ". ¿Cuál de esos códigos es el tuyo?"
    else
      let dicha : Texto := match qty with
        | some q => if q = 0 then "" else (" (me dijiste " : Texto) ++ Texto.ofInt q ++ " uds)"
        | none => ""
      ("De \"" : Texto) ++ texto ++ "\"" ++ dicha ++ " tengo " ++
        Texto.join " y " (opciones.map (opcionDicha U)) ++ ". ¿Cuál quieres?"
  | .sinCandidatos texto =>
    ("\"" : Texto) ++ texto ++ "\" no lo encuentro entre lo que sueles pedir. " ++
      "¿Me pasas el nombre completo o el código? Si no, se lo dejo a " ++ salesman ++
      " para que lo mire."
  | .rechazoRegistrado texto =>
    ("Entendido, esas opciones de \"" : Texto) ++ texto ++ "\" no son. " ++
      "Pásame el código o el nombre completo del que buscas y lo apunto."
  | .recordatorioPendiente item =>
    ("Sigo con \"" : Texto) ++ item ++
      "\" pendiente: dime el código o el nombre completo cuando puedas."
  | .conflictoCantidad code name opcionesQty =>
    ("De " : Texto) ++ nombreDe U name code ++ " (" ++ code ++
      ") me has dado dos cantidades distintas. ¿Con cuál me quedo: " ++
      Texto.join " , " (opcionesQty.map Texto.ofInt) ++ "?"
  | .preguntaBaja code name =>
    ("Con eso " : Texto) ++ nombreDe U name code ++ " (" ++ code ++
      ") se quedaría en 0. ¿Te lo quito del pedido?"
  | .preguntaEliminarORestar code name n =>
    ("De " : Texto) ++ nombreDe U name code ++ " (" ++ code ++ "): ¿quito la línea entera o resto " ++
      Texto.ofInt (orNum (some n) 1) ++ "?"
  | .referenciaAmbigua texto candidatas =>
    if candidatas.isEmpty then
      ("Perdona, no acabo de encontrar \"" : Texto) ++ texto ++
        "\". ¿Me das la marca o el código y lo apunto?"
    else
      ("De \"" : Texto) ++ texto ++ "\" no sé cuál quieres: " ++
        Texto.join " o " (candidatas.eraseDups.take 3) ++ ". ¿Me lo confirmas?"
  | .propuesta .repetir items _ =>
    ("Como tu último pedido quedaría: " : Texto) ++ lineasDichas U items ++ ". ¿Lo apunto así?"
  | .propuesta .media items _ =>
    ("De lo que me has mandado he sacado: " : Texto) ++ lineasDichas U items ++
      ". Al venir de una foto/audio prefiero confirmarlo: ¿lo apunto?"
  | .propuesta .cierre items _ =>
    ("Tu pedido queda: " : Texto) ++ Texto.orElse (lineasDichas U items) "sin líneas cerradas" ++ "." ++
      pendientesDichos salesman e ++ " ¿Lo confirmo y se lo paso a " ++ salesman ++ "?"
  | .sinEntender =>
    ("No estoy seguro de haberte entendido. " : Texto) ++
      "Dime producto y cantidad (mejor con el código si lo tienes) y lo apunto."
  | _ => ""

/-! ## The parts of a reply -/

/-- The mutable locals of `render`; a question is kept as the fact it asks about. -/
structure Partes where
  conf : List Texto := []
  preguntas : List Hecho := []
  otras : List Texto := []
  cortesias : List Texto := []
  cierre : Option Texto := none
  derivacion : Option Texto := none
  revisar : List Texto := []
  asked : ℕ := 0
  held : ℕ := 0

namespace Partes

def confirma (p : Partes) (t : Texto) : Partes := { p with conf := p.conf ++ [t] }

def pregunta (p : Partes) (h : Hecho) : Partes := { p with preguntas := p.preguntas ++ [h] }

def avisa (p : Partes) (t : Texto) : Partes := { p with otras := p.otras ++ [t] }

def saluda (p : Partes) (t : Texto) : Partes := { p with cortesias := p.cortesias ++ [t] }

end Partes

/-- `habra_intro`. -/
def Carta.presenta (c : Carta) : Bool :=
  c.introMode = .new || (c.introMode = .renew && c.commercialTurn)

/-- The facts that are no question. -/
def anotaAviso (c : Carta) (e : Estado) (p : Partes) : Hecho → Partes
  | .confirmado code name qty marcado _ =>
    p.confirma (("Apuntado: " : Texto) ++ lineaProducto U name qty code marcado)
  | .actualizado code name qty =>
    p.confirma (("Actualizado: " : Texto) ++ lineaProducto U name qty code false)
  | .sinCambioConfirmado code name qty =>
    p.confirma (("Eso ya lo tienes en el pedido: " : Texto) ++ lineaProducto U name qty code false ++ ".")
  | .eliminado code name =>
    p.confirma (("Quitado del pedido: " : Texto) ++ nombreDe U name code ++ " (" ++ code ++ ").")
  | .codigoNoExiste code =>
    p.avisa (("El código " : Texto) ++ code ++
      " no me consta en el sistema; puede ser antiguo o de otro proveedor. Se lo paso a " ++
      c.salesmanName ++ " para que lo revise.")
  | .cerrado cart revisar =>
    let extra : Texto := if revisar.isEmpty then ""
      else (" Para que lo revise te dejo anotado: " : Texto) ++ Texto.join ", " revisar ++ "."
    { p with cierre := some (("¡Pedido confirmado! " : Texto) ++ lineasDichas U cart ++ "." ++ extra ++
        " Se lo paso ahora a " ++ c.salesmanName ++ ", que lo valida antes del envío. Gracias.") }
  | .derivacion _ =>
    { p with derivacion := some (("De eso te informa " : Texto) ++ c.salesmanName ++
        " directamente; le aviso para que te escriba en cuanto pueda.") }
  | .aRevisar texto => { p with revisar := p.revisar ++ [texto] }
  | .propuestaRetirada _ => p.saluda "Vale, lo dejo como estaba."
  | .avisoComercial =>
    { p with derivacion := some (("Aviso a " : Texto) ++ c.salesmanName ++
        " para que se conecte lo antes posible y te atienda.") }
  | .optOut =>
    { p with derivacion := some (("Entendido, no te escribo más. Aviso a " : Texto) ++ c.salesmanName ++
        " para que te atienda personalmente.") }
  | .recapPedido =>
    if e.cart.isEmpty then p.avisa "Todavía no tienes nada apuntado en este pedido. ¿Qué te pongo?"
    else p.avisa (("Ahora mismo llevas apuntado: " : Texto) ++
      Texto.join "; " (e.cart.map fun l => lineaProducto U l.name l.qty l.code false) ++
      ". ¿Añades algo más o lo cerramos?")
  | .cortesia .confirmacionSinPregunta => p.saluda "¡De acuerdo!"
  | .cortesia (.subtipo .saludo) => if c.presenta then p else p.saluda "¡Hola!"
  | .cortesia (.subtipo .agradecimiento) =>
    p.saluda "¡Gracias a ti! Aquí estoy si necesitas apuntar algo más."
  | .cortesia (.subtipo .despedida) =>
    p.saluda "¡Gracias a ti! Aquí estoy si necesitas apuntar algo más."
  | .cortesia (.subtipo .preguntaBot) =>
    p.saluda (("Soy Kapa, un asistente: apunto tu pedido y " : Texto) ++ c.salesmanName ++
      " lo confirma antes de enviar nada.")
  | _ => p

/-- One fact of the loop. -/
def anotaHecho (c : Carta) (e : Estado) (p : Partes) (h : Hecho) : Partes :=
  if h.preguntaProducto then
    if questionBudget ≤ p.asked then { p with held := p.held + 1 }
    else { p with asked := p.asked + 1 }.pregunta h
  else if h.otraPregunta then p.pregunta h
  else anotaAviso U c e p h

def partesDe (hechos : List Hecho) (e : Estado) (c : Carta) : Partes :=
  hechos.foldl (anotaHecho U c e) {}

/-- A block of the reply. -/
inductive Bloque where
  | texto (t : Texto)
  | pregunta (h : Hecho)
  | quedan (n : ℕ)
  deriving DecidableEq

def Bloque.dicho (salesman : Texto) (e : Estado) : Bloque → Texto
  | .texto t => t
  | .pregunta h => textoPregunta U salesman e h
  | .quedan n => ("Me quedan " : Texto) ++ Texto.ofNat n ++ " más por concretar; te los voy preguntando."

namespace Partes

variable (p : Partes)

/-- `preguntas`, with the announcement of the questions that wait. -/
def bloquesPreguntas : List Bloque :=
  p.preguntas.map .pregunta ++ if p.held = 0 then [] else [.quedan p.held]

/-- `otras`, with the products left to the salesman. -/
def notas (salesman : Texto) : List Texto :=
  if p.revisar.isEmpty || p.cierre.isSome then p.otras
  else p.otras ++ [("No lo tengo claro, así que se lo dejo anotado a " : Texto) ++ salesman ++
    " para que lo revise: " ++ Texto.join ", " p.revisar ++ "."]

/-- The courtesies go alone, or with notes and a referral. -/
def conCortesias : Bool :=
  p.conf.isEmpty && p.bloquesPreguntas.isEmpty && p.cierre.isNone

/-- The blocks after the greeting. -/
def cuerpo (salesman : Texto) : List Bloque :=
  (match p.cierre with
    | some cierre => p.conf.map .texto ++ [.texto cierre]
    | none => p.conf.map .texto ++ p.bloquesPreguntas ++ (p.notas salesman).map .texto) ++
    (p.derivacion.toList.map .texto ++ if p.conCortesias then p.cortesias.map .texto else [])

end Partes

/-- The blocks of the reply, in order. -/
def bloquesDe (hechos : List Hecho) (e : Estado) (c : Carta) : Option (List Bloque) :=
  (if c.presenta then saludoDe U c else some []).map fun saludo =>
    (if saludo.isEmpty then [] else [.texto saludo]) ++
      (partesDe U hechos e c).cuerpo c.salesmanName

/-- `render`; an empty text is silence. -/
def render (hechos : List Hecho) (e : Estado) (c : Carta) : Option Texto :=
  (bloquesDe U hechos e c).map fun bloques =>
    let dichos := (bloques.map (Bloque.dicho U c.salesmanName e)).filter fun t => !t.isEmpty
    let cuerpo := Texto.strip (Texto.join "\n" dichos)
    if cuerpo.isEmpty then [] else cuerpo ++ "\n" ++ botSignature

end Chatlink.Agent
