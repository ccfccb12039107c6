import Chatlink.Delivery.Alerts
import Chatlink.Delivery.Sheet
import Chatlink.Lib.Sweep

/-!
# The delivery half of a tick

`send_queued` hands every queued reply of both tables to its transport, and
`send_orders` emails every queued order with its sheet. One try is one passage of the
loop body, with a commit at its end. Whatever raises inside it (the lookup of the
salesman, the transport, the workbook) leaves the function, and with it the tick.
-/
namespace Chatlink.Delivery

open Conversation (Canal Clave Status Config)
open Sweep

/-- The columns of a `User` that delivery reads; an absent one is empty. -/
structure Comercial where
  email : Texto
  waDeviceJid : Texto

/-- What is delivered: a reply of one of the tables, or an order. -/
inductive Pieza where
  | respuesta (canal : Canal) (id : ℕ)
  | pedido (id : ℕ)
  deriving DecidableEq, Repr

/-- The request made of a transport. -/
inductive Peticion where
  | whatsapp (toPhone text fromJid : Texto)
  | emailAs (fromEmail toEmail subject body : Texto)
  | email (toEmail subject body : Texto) (hoja : List Fila)

/-- How a transport answers. -/
inductive Envio where
  | hecho
  | fallo (error : Texto)
  | excepcion
  deriving DecidableEq

/-- What a tick meets: the lookup of the salesman, which may raise, the answer of the
transport to each request, and whether the workbook takes the rows of a sheet. -/
structure Ambiente where
  salesmanOf : Pieza → Canal → Texto → Option (Option Comercial)
  send : Pieza → Peticion → Envio
  workbook : List Fila → Bool
  /-- `Items: … Review: …` as the interpreter prints the two lists. -/
  volcado : Agent.KapaOrder → Texto

/-! ## Replies -/

def pieza (f : Conversation.Fila) : Pieza := .respuesta f.clave.canal f.id

def peticionRespuesta (f : Conversation.Fila) (user : Option Comercial) : Peticion :=
  match f.clave.canal with
  | .whatsapp => .whatsapp f.clave.clientId f.message ((user.map Comercial.waDeviceJid).getD [])
  | .email => .emailAs f.clave.userId f.clave.clientId "Re: Pedido" f.message

variable (cfg : Config) (amb : Ambiente)

/-- The loop body of `send_queued`. -/
def entregaRespuesta (f : Conversation.Fila) : Option (Conversation.Fila × List Llamada) :=
  match amb.salesmanOf (pieza f) f.clave.canal f.clave.userId with
  | none => none
  | some user =>
    match amb.send (pieza f) (peticionRespuesta f user) with
    | .excepcion => none
    | .hecho => some (f.trasEnvio cfg true, [])
    | .fallo error =>
      let f' := f.trasEnvio cfg false
      some (f', if f'.status = .failed then [.respuesta f.clave error] else [])

/-! ## Orders -/

namespace Orden

def enCola (o : Orden) : Bool := o.emailStatus = .queued

/-- The row after one attempt. -/
def trasEnvio (ok : Bool) (o : Orden) : Orden :=
  { o with
    attempts := o.attempts + 1
    emailStatus := if ok then .sent
      else if cfg.sendAttempts ≤ o.attempts + 1 then .failed else o.emailStatus }

def subject (o : Orden) : Texto :=
  ("Pedido confirmado (" : Texto) ++ Texto.orElse o.clientName o.clave.clientId ++ (")" : Texto)

def lineaCorreo (l : Agent.Linea) : Texto :=
  ("  " : Texto) ++ l.code ++ ("  x" : Texto) ++ Texto.ofInt l.qty ++ ("  " : Texto) ++ l.name

def revisionCorreo (r : Texto × Option ℤ) : Texto :=
  ("  REVISAR: " : Texto) ++ r.1 ++
    match r.2 with
    | some q => if q = 0 then [] else (" x" : Texto) ++ Texto.ofInt q
    | none => []

def body (o : Orden) : Texto :=
  let lines := Texto.join ['\n'] (o.pedido.cart.map lineaCorreo)
  let review := Texto.join ['\n'] (o.pedido.review.map revisionCorreo)
  Texto.rstrip (("Pedido confirmado por " : Texto) ++ o.clientName ++ (" (" : Texto) ++
    o.clave.clientId ++ (").\n\n" : Texto) ++ lines ++ ("\n" : Texto) ++ review)

def hoja (o : Orden) : List Fila := filas o.pedido.cart o.pedido.review

def peticion (o : Orden) (toEmail : Texto) : Peticion := .email toEmail o.subject o.body o.hoja

end Orden

/-- The row after an answer of the transport, with the alert of a failed order. -/
def anotaOrden (o : Orden) (toEmail : Texto) : Envio → Option (Orden × List Llamada)
  | .excepcion => none
  | .hecho => some (o.trasEnvio cfg true, [])
  | .fallo error =>
    let o' := o.trasEnvio cfg false
    some (o', if o'.emailStatus = .failed then [.pedido o toEmail error (amb.volcado o.pedido)] else [])

/-- The loop body of `send_orders`. -/
def entregaOrden (o : Orden) : Option (Orden × List Llamada) :=
  match amb.salesmanOf (.pedido o.id) o.clave.canal o.clave.userId with
  | none => none
  | some user =>
    let toEmail := (user.map Comercial.email).getD []
    if toEmail.isEmpty then anotaOrden cfg amb o toEmail (.fallo "the salesman has no email")
    else if amb.workbook o.hoja then
      anotaOrden cfg amb o toEmail (amb.send (.pedido o.id) (o.peticion toEmail))
    else none

/-! ## The tick -/

/-- The bot rows of both tables and the closed orders, in the order of their ids. -/
structure Salida where
  respuestas : List Conversation.Fila := []
  ordenes : List Orden := []

/-- A queued reply of one table. -/
def enCola (c : Canal) (f : Conversation.Fila) : Bool := f.clave.canal = c && f.enCola

/-- What is queued, in the order in which a tick tries it. -/
def Salida.enCola (s : Salida) : List Pieza :=
  (s.respuestas.filter (Delivery.enCola .whatsapp)).map pieza ++
    (s.respuestas.filter (Delivery.enCola .email)).map pieza ++
    (s.ordenes.filter Orden.enCola).map fun o => .pedido o.id

/-- How far a part of the tick came: the rows, what was tried, the alerts, and whether it
went through. -/
structure Pasada where
  salida : Salida
  probadas : List Pieza := []
  avisos : List Llamada := []
  completa : Bool := true

/-- The next part runs unless an exception left this one. -/
def Pasada.luego (p : Pasada) (parte : Salida → Pasada) : Pasada :=
  if p.completa then
    let q := parte p.salida
    { q with probadas := p.probadas ++ q.probadas, avisos := p.avisos ++ q.avisos }
  else p

/-- The replies of one table. -/
def sendChannel (c : Canal) (s : Salida) : Pasada :=
  let r := sweep (enCola c) (entregaRespuesta cfg amb) s.respuestas
  ⟨{ s with respuestas := r.items }, r.tried.map pieza, r.reports, r.complete⟩

def sendQueued (s : Salida) : Pasada :=
  (sendChannel cfg amb .whatsapp s).luego (sendChannel cfg amb .email)

def sendOrders (s : Salida) : Pasada :=
  let r := sweep Orden.enCola (entregaOrden cfg amb) s.ordenes
  ⟨{ s with ordenes := r.items }, r.tried.map fun o => .pedido o.id, r.reports, r.complete⟩

/-- The end of `tick`. -/
def entrega (s : Salida) : Pasada := (sendQueued cfg amb s).luego (sendOrders cfg amb)

/-- Between ticks replies and orders are queued. -/
inductive SucesoSalida where
  | responde (f : Conversation.Fila)
  | cierra (o : Orden)
  | tick (amb : Ambiente)

def pasoSalida (s : Salida) : SucesoSalida → Salida
  | .responde f => { s with respuestas := s.respuestas ++ [f] }
  | .cierra o => { s with ordenes := s.ordenes ++ [o] }
  | .tick amb => (entrega cfg amb s).salida

/-- The rows after a sequence of events. -/
def trasSucesos (s : Salida) (evs : List SucesoSalida) : Salida := evs.foldl (pasoSalida cfg) s

end Chatlink.Delivery
