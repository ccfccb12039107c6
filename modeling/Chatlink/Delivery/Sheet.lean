import Chatlink.Agent.Turn

/-!
# The order sheet

The rows that `_xlsx_from_cart` writes for a closed order: one for each line of the
cart and one for each review line, which carries the client's own words and no code.
-/
namespace Chatlink.Delivery

open Agent

/-- A row of the sheet: `codigo`, `cantidad`, `origen`. -/
structure Fila where
  codigo : Texto
  cantidad : ℤ
  origen : Texto
  deriving DecidableEq, Repr

def filaDeLinea (l : Linea) : Fila where
  codigo := l.code
  cantidad := orNum (some l.qty) 1
  origen := if l.fuente = ("codigo_cliente" : Texto) then "codigo_cliente (revisar)" else []

def filaDeRevision (r : Texto × Option ℤ) : Fila where
  codigo := []
  cantidad := orNum r.2 1
  origen := ("revisar: " : Texto) ++ r.1

/-- The rows below the header. -/
def filas (cart : List Linea) (review : List (Texto × Option ℤ)) : List Fila :=
  cart.map filaDeLinea ++ review.map filaDeRevision

end Chatlink.Delivery
