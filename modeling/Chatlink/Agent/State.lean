import Chatlink.Text.Python

/-!
# The state of an order conversation

The cart, the open items and the facts of a turn, as `ai/llm.py` keeps them. The
dictionaries of the source are structures here: an absent key of a text is the
empty text and an absent number is `none`, which is how every reader of the
source treats them. Quantities are integers because a decrement may pass zero.
-/
namespace Chatlink.Agent

inductive OrderStatus where
  | idle
  | building
  | closed
  deriving DecidableEq, Repr

/-- A cart line `{code, qty, name, fuente, brand?}`. -/
structure Linea where
  code : Texto
  qty : ℤ
  name : Texto
  fuente : Texto
  brand : Texto := []
  deriving DecidableEq, Repr

/-- One option of a product question. -/
structure Opcion where
  code : Texto
  name : Texto
  brand : Texto
  fuente : Texto
  fecha : Texto
  distintivo : Texto
  deriving DecidableEq, Repr

/-- An open product: the client's words, not yet tied to a code. `nuevo` and
`revisar` are the working marks `_nuevo` and `_revisar`. -/
structure Producto where
  texto : Texto
  qty : Option ℤ
  opciones : List Opcion := []
  rechazados : List Texto := []
  intentos : Option ℕ := none
  nuevo : Bool := false
  revisar : Bool := false
  deriving DecidableEq, Repr

/-- A pending choice between quantities of one code. -/
structure Conflicto where
  code : Texto
  name : Texto
  opcionesQty : List ℤ
  deriving DecidableEq, Repr

/-- `SI_NO_TIPOS`. -/
inductive TipoSiNo where
  | media
  | repetir
  | cierre
  | baja
  deriving DecidableEq, Repr

/-- A yes/no proposal. `code` and `name` are set for `propuesta_baja` only. -/
structure Propuesta where
  tipo : TipoSiNo
  items : List Linea := []
  code : Texto := []
  name : Texto := []
  deriving DecidableEq, Repr

inductive Item where
  | producto (p : Producto)
  | revisar (texto : Texto) (qty : Option ℤ)
  | conflicto (c : Conflicto)
  | siNo (p : Propuesta)
  deriving DecidableEq, Repr

namespace Item

def producto? : Item → Option Producto
  | producto p => some p
  | _ => none

def conflicto? : Item → Option Conflicto
  | conflicto c => some c
  | _ => none

def siNo? : Item → Option Propuesta
  | siNo p => some p
  | _ => none

def revisar? : Item → Option (Texto × Option ℤ)
  | revisar texto qty => some (texto, qty)
  | _ => none

/-- A quantity conflict about `code`. -/
def conflictoDe (code : Texto) : Item → Bool
  | conflicto c => c.code = code
  | _ => false

end Item

/-- What the reducer writes. -/
structure Estado where
  orderStatus : OrderStatus := .idle
  cart : List Linea := []
  openItems : List Item := []
  lastClosedCart : List Linea := []
  deriving DecidableEq, Repr

namespace Estado

def linea (e : Estado) (code : Texto) : Option Linea := e.cart.find? fun l => l.code = code

def siNos (e : Estado) : List Propuesta := e.openItems.filterMap Item.siNo?

/-- The live yes/no proposal, if any. -/
def siNoVivo (e : Estado) : Option Propuesta := e.siNos.head?

def productosAbiertos (e : Estado) : List Producto := e.openItems.filterMap Item.producto?

def conflictos (e : Estado) : List Conflicto := e.openItems.filterMap Item.conflicto?

/-- Products that reach the salesman as the client's own words. -/
def aRevisar (e : Estado) : List (Texto × Option ℤ) := e.openItems.filterMap Item.revisar?

end Estado

/-- `MODOS`. -/
inductive Modo where
  | total
  | incremento
  | decremento
  | eliminar
  | sinCambio
  deriving DecidableEq, Repr

/-- `SUBTIPOS_OTRO`. -/
inductive Subtipo where
  | saludo
  | despedida
  | agradecimiento
  | estadoPedido
  | pideComercial
  | fueraAmbito
  | precioStockFactura
  | especificacion
  | queja
  | escalada
  | rechazoBot
  | preguntaBot
  | noSabe
  deriving DecidableEq, Repr

/-- The reason of a referral to the salesman. -/
inductive Motivo where
  | repetirSinHistorial
  | subtipo (s : Subtipo)
  deriving DecidableEq, Repr

/-- The courtesies the template knows. -/
inductive Cortesia where
  | confirmacionSinPregunta
  | subtipo (s : Subtipo)
  deriving DecidableEq, Repr

inductive Titulo where
  | ninguno
  | media
  | repetir
  | cierre
  deriving DecidableEq, Repr

/-- Typed units of what the reply will say. -/
inductive Hecho where
  | confirmado (code name : Texto) (qty : ℤ) (marcado : Bool) (aliasTexto : Texto)
  | actualizado (code name : Texto) (qty : ℤ)
  | sinCambioConfirmado (code name : Texto) (qty : ℤ)
  | eliminado (code name : Texto)
  | preguntaOpciones (texto : Texto) (qty : Option ℤ) (opciones : List Opcion)
      (indistinguibles : Bool)
  | conflictoCantidad (code name : Texto) (opcionesQty : List ℤ)
  | preguntaBaja (code name : Texto)
  | preguntaEliminarORestar (code name : Texto) (n : ℤ)
  | sinCandidatos (texto : Texto)
  | codigoNoExiste (code : Texto)
  | rechazoRegistrado (texto : Texto)
  | referenciaAmbigua (texto : Texto) (candidatas : List Texto)
  | propuesta (tipo : TipoSiNo) (items : List Linea) (titulo : Titulo)
  | propuestaRetirada (tipo : TipoSiNo)
  | cerrado (cart : List Linea) (revisar : List Texto)
  | aRevisar (texto : Texto)
  | recordatorioPendiente (item : Texto)
  | derivacion (motivo : Motivo)
  | avisoComercial
  | optOut
  | recapPedido
  | cortesia (subtipo : Cortesia)
  | sinEntender
  deriving DecidableEq, Repr

/-- Operations the resolver hands to the reducer. -/
inductive Op where
  | add (code name brand : Texto) (qty : Option ℤ) (fuente : Texto)
  | modificar (code name : Texto) (modo : Modo) (valor : Option ℤ) (eliminarConNumeral : Bool)
      (valorNumeral : Option ℤ)
  | opciones (texto : Texto) (qty : Option ℤ) (opciones : List Opcion) (indistinguibles : Bool)
  | sinCandidatos (texto : Texto) (qty : Option ℤ)
  | codigoNoExiste (code : Texto)
  | rechazo (itemTexto : Option Texto)
  | elige (itemTexto code name brand fuente : Texto)
  | eligeQty (code : Texto) (valor : ℤ)
  | referenciaAmbigua (texto : Texto) (candidatas : List Texto)
  | cantidadGlobal (valor : Option ℤ)
  | repetirUltimo (qtyOverride : Option ℤ)
  | cerrar
  | confirmar
  | negar
  | otro (subtipo : Subtipo)
  deriving DecidableEq, Repr

/-- The log entries of vetoed operations. -/
inductive Descarte where
  | siNoDuplicada (tipo : TipoSiNo)
  | modificarFueraDeCarrito (code : Texto)
  | eliminarFueraDeCarrito (code : Texto)
  | rechazoSinItem
  | eligeQtyInvalido (code : Texto) (valor : ℤ)
  deriving DecidableEq, Repr

/-- Python's `a or b` on optional numbers: zero counts as absent. -/
def orNum (a : Option ℤ) (b : ℤ) : ℤ :=
  match a with
  | some n => if n = 0 then b else n
  | none => b

end Chatlink.Agent
