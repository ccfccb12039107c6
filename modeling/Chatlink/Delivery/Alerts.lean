import Chatlink.Conversation.System
import Chatlink.Agent.Turn

/-!
# Alerts

`alert` emails a problem at most once per repeat period for the same key. The calls of
the program are listed with the key and the text of each: those about a client or an
order that is left without an answer, and those about the installation. Texts of
exceptions and of the transports' errors are given.
-/
namespace Chatlink.Delivery

open Conversation (Canal Clave Status)

/-- A row of `kapa_orders`. -/
structure Orden where
  id : ℕ
  clave : Clave
  clientName : Texto
  pedido : Agent.KapaOrder
  emailStatus : Status := .queued
  attempts : ℕ := 0
  deriving DecidableEq

/-- What `alert` is called for. -/
inductive Llamada where
  /-- A turn raised. -/
  | turno (k : Clave) (error : Texto)
  /-- A reply is marked failed. -/
  | respuesta (k : Clave) (error : Texto)
  /-- An order is marked failed; `volcado` is its printed cart and review lines. -/
  | pedido (o : Orden) (toEmail error volcado : Texto)
  | ambiguo (clientId codes : Texto)
  | dispositivo (phone kind text : Texto)
  | gmail (login : Texto)
  | sage (error : Texto)
  | bucle (error : Texto)
  deriving DecidableEq

def nombreCanal : Canal → Texto
  | .whatsapp => "whatsapp"
  | .email => "email"

/-- The kinds of calls, by the head of their keys. -/
inductive Clase where
  | turno | respuesta | pedido | ambiguo | dispositivo | gmail | sage | bucle
  deriving DecidableEq

def Clase.cabecera : Clase → Texto
  | turno => "turn:"
  | respuesta => "send:"
  | pedido => "order:"
  | ambiguo => "ambiguous:"
  | dispositivo => "device:"
  | gmail => "gmail_auth:"
  | sage => "sage"
  | bucle => "loop"

namespace Llamada

def clase : Llamada → Clase
  | turno .. => .turno
  | respuesta .. => .respuesta
  | pedido .. => .pedido
  | ambiguo .. => .ambiguo
  | dispositivo .. => .dispositivo
  | gmail .. => .gmail
  | sage .. => .sage
  | bucle .. => .bucle

/-- What follows the head of the key. -/
def resto : Llamada → Texto
  | turno k _ => nombreCanal k.canal ++ ((":" : Texto) ++ k.userId)
  | respuesta k _ => nombreCanal k.canal ++ ((":" : Texto) ++ k.userId)
  | pedido o _ _ _ => Texto.ofNat o.id
  | ambiguo clientId _ => clientId
  | dispositivo phone kind _ => phone ++ ((":" : Texto) ++ kind)
  | gmail login => login
  | sage _ => []
  | bucle _ => []

def key (l : Llamada) : Texto := l.clase.cabecera ++ l.resto

/-- The text, in its parts. -/
def partes : Llamada → List Texto
  | turno k error => ["A turn failed for client ", k.clientId, " of ", k.userId, " (",
      nombreCanal k.canal, "): ", error,
      ". It is retried every loop; the salesman should answer meanwhile."]
  | respuesta k error => ["A reply to ", k.clientId, " could not be delivered from ", k.userId, " (",
      nombreCanal k.canal, "): ", error, ". The client has no answer; the salesman should reply."]
  | pedido o toEmail error volcado => ["Closed ", ("order " : Texto) ++ Texto.ofNat o.id, " of ",
      o.clientName, " (", o.clave.clientId, ") could not be emailed to ",
      Texto.orElse toEmail o.clave.userId, ": ", error, ". ", volcado]
  | ambiguo clientId codes => [clientId, " matches several SAGE clients ", codes,
      ": Kapa cannot use their order history. Fix the phone/email in SAGE."]
  | dispositivo _ _ text => [text]
  | gmail login => ["Gmail rejected the app password of ", login,
      ". Email coverage is off for this salesman until a new app password is set."]
  | sage error => ["SAGE lookup failed: ", error, ". Messages are stored but Kapa cannot answer."]
  | bucle error => ["The main loop failed: ", error]

def text (l : Llamada) : Texto := l.partes.flatten

end Llamada

/-- The alerts of a run. `last` is the `_last` of the process; `emitidas` are the calls for
which an email went out, each with its time. -/
structure Alertas where
  reloj : ℕ := 0
  last : Texto → Option ℕ := fun _ => none
  emitidas : List (ℕ × Llamada) := []

namespace Alertas

variable (repeatS : ℕ) (s : Alertas)

/-- An alert of this key went out less than a repeat period ago. -/
def callada (key : Texto) : Bool :=
  match s.last key with
  | some t => s.reloj < t + repeatS
  | none => false

/-- `alert`. -/
def alert (l : Llamada) : Alertas :=
  if s.callada repeatS l.key then s
  else { s with
    last := fun key => if key = l.key then some s.reloj else s.last key
    emitidas := s.emitidas ++ [(s.reloj, l)] }

end Alertas

end Chatlink.Delivery
