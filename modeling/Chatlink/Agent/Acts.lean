import Chatlink.Agent.State

/-!
# Acts

The extraction answers with JSON; `parseActos` reads acts out of it and
`validarActos` is the mechanical filter behind it. The filter checks the evidence
and the numbers of an act against the message. The texts `producto_texto` and
`objetivo_texto` pass through it unread.
-/
namespace Chatlink.Agent

open Regex

/-! ## JSON values -/

/-- A JSON number with a point or an exponent: what `int`, `bool` and `str` read of it. -/
inductive Flotante where
  | finite (trunc : ℤ) (isZero : Bool) (repr : Texto)
  | nan
  | inf (negative : Bool)
  deriving DecidableEq

inductive Json where
  | null
  | bool (b : Bool)
  | int (n : ℤ)
  | float (f : Flotante)
  | str (s : Texto)
  | arr (xs : List Json)
  | obj (fields : List (Texto × Json))

/-- The exceptions that leave `run_agent`. -/
inductive PyError where
  | overflowError
  | valueError
  deriving DecidableEq

namespace Json

def truthy : Json → Bool
  | null => false
  | bool b => b
  | int n => n ≠ 0
  | float (.finite _ isZero _) => !isZero
  | float _ => true
  | str s => !s.isEmpty
  | arr xs => !xs.isEmpty
  | obj fields => !fields.isEmpty

/-- `d.get(key)` on a dictionary; an absent key is `None`. -/
def get (fields : List (Texto × Json)) (key : Texto) : Json := (fields.lookup key).getD null

mutual

/-- `repr(v)`. -/
def repr (U : Unicode) : Json → Texto
  | null => "None"
  | bool true => "True"
  | bool false => "False"
  | int n => Texto.ofInt n
  | float (.finite _ _ r) => r
  | float .nan => "nan"
  | float (.inf negative) => if negative then "-inf" else "inf"
  | str s => U.repr s
  | arr xs => '[' :: reprItems U xs ++ [']']
  | obj fields => '\x7b' :: reprFields U fields ++ ['\x7d']

def reprItems (U : Unicode) : List Json → Texto
  | [] => []
  | [v] => repr U v
  | v :: vs => repr U v ++ ", ".toList ++ reprItems U vs

def reprFields (U : Unicode) : List (Texto × Json) → Texto
  | [] => []
  | [(k, v)] => U.repr k ++ ": ".toList ++ repr U v
  | (k, v) :: kvs => U.repr k ++ ": ".toList ++ repr U v ++ ", ".toList ++ reprFields U kvs

end

/-- `str(v or "").strip()`. -/
def texto (U : Unicode) (v : Json) : Texto :=
  if v.truthy then
    match v with
    | str s => Texto.strip s
    | v => Texto.strip (v.repr U)
  else []

/-- `_to_int`: a number from 0 to 100000. An infinite float is the one value that raises. -/
def toInt (U : Unicode) (v : Json) : Except PyError (Option ℤ) :=
  let enRango (n : ℤ) : Option ℤ := if 0 ≤ n ∧ n ≤ 100000 then some n else none
  match v with
  | int n => .ok (enRango n)
  | float (.finite trunc _ _) => .ok (enRango trunc)
  | float (.inf _) => .error .overflowError
  | str s => .ok ((U.intOf s).bind enRango)
  | _ => .ok none

end Json

/-! ## Acts -/

/-- `TIPOS`. -/
inductive TipoActo where
  | pedir
  | modificar
  | elegir
  | rechazar
  | confirmar
  | negar
  | cerrar
  | repetirUltimo
  | cantidadGlobal
  | otro
  deriving DecidableEq, Repr

def TipoActo.ofTexto? (s : Texto) : Option TipoActo :=
  (([("pedir", pedir), ("modificar", modificar), ("elegir", elegir), ("rechazar", rechazar),
    ("confirmar", confirmar), ("negar", negar), ("cerrar", cerrar),
    ("repetir_ultimo", repetirUltimo), ("cantidad_global", cantidadGlobal), ("otro", otro)] :
    List (String × TipoActo)).find? fun p => p.1.toList = s).map Prod.snd

def Modo.ofTexto? (s : Texto) : Option Modo :=
  (([("total", total), ("incremento", incremento), ("decremento", decremento),
    ("eliminar", eliminar), ("sin_cambio", sinCambio)] :
    List (String × Modo)).find? fun p => p.1.toList = s).map Prod.snd

def Subtipo.ofTexto? (s : Texto) : Option Subtipo :=
  (([("saludo", saludo), ("despedida", despedida), ("agradecimiento", agradecimiento),
    ("estado_pedido", estadoPedido), ("pide_comercial", pideComercial),
    ("fuera_ambito", fueraAmbito), ("precio_stock_factura", precioStockFactura),
    ("especificacion", especificacion), ("queja", queja), ("escalada", escalada),
    ("rechazo_bot", rechazoBot), ("pregunta_bot", preguntaBot), ("no_sabe", noSabe)] :
    List (String × Subtipo)).find? fun p => p.1.toList = s).map Prod.snd

structure Cantidad where
  modo : Modo := .sinCambio
  valor : Option ℤ := none
  deriving DecidableEq, Repr

/-- An act of the client; `subtipo` is `none` for the empty text. -/
structure Acto where
  tipo : TipoActo
  evidencia : Texto := []
  productoTexto : Texto := []
  objetivoTexto : Texto := []
  cantidad : Cantidad := {}
  valor : Option ℤ := none
  subtipo : Option Subtipo := none
  eliminarConNumeral : Bool := false
  deriving DecidableEq, Repr

variable (U : Unicode)

/-- A value of an enumeration, when the JSON value is one of its texts. -/
def Json.enum {α : Type} (ofTexto? : Texto → Option α) : Json → Option α
  | .str s => ofTexto? s
  | _ => none

def parseActo : Json → Except PyError (Option Acto)
  | .obj raw =>
    match TipoActo.ofTexto? ((Json.get raw "tipo").texto U) with
    | none => .ok none
    | some tipo => do
      let cantidadValor ← (Json.get raw "cantidad_valor").toInt U
      let valor ← (Json.get raw "valor").toInt U
      return some
        { tipo := tipo
          evidencia := (Json.get raw "evidencia").texto U
          productoTexto := (Json.get raw "producto_texto").texto U
          objetivoTexto := (Json.get raw "objetivo_texto").texto U
          cantidad := ⟨((Json.get raw "cantidad_modo").enum Modo.ofTexto?).getD .sinCambio,
            cantidadValor⟩
          valor := valor
          subtipo := (Json.get raw "subtipo").enum Subtipo.ofTexto? }
  | _ => .ok none

/-- The raw acts: a list under `actos` of a dictionary, else nothing. -/
def actosBrutos : Json → List Json
  | .obj data => match Json.get data "actos" with
    | .arr xs => xs
    | _ => []
  | _ => []

def parseActos (data : Json) : Except PyError (List Acto) := do
  let actos ← (actosBrutos data).mapM (parseActo U)
  return actos.filterMap id

/-! ## Numbers of a text -/

/-- `_PALABRA_NUM`. -/
def palabraNum : List (Texto × ℤ) :=
  ([("un", 1), ("uno", 1), ("una", 1), ("dos", 2), ("tres", 3), ("cuatro", 4),
    ("cinco", 5), ("seis", 6), ("siete", 7), ("ocho", 8), ("nueve", 9),
    ("diez", 10), ("once", 11), ("doce", 12), ("docena", 12), ("trece", 13),
    ("catorce", 14), ("quince", 15), ("veinte", 20)] :
    List (String × ℤ)).map fun (w, n) => (w.toList, n)

/-- The class `[a-záéíóúñ]`. -/
def esLetra (c : Char) : Bool :=
  ('a' ≤ c && c ≤ 'z') || c ∈ ['á', 'é', 'í', 'ó', 'ú', 'ñ']

/-- The numeral words of a list of words; `previa` is the word before the list. -/
def numerosDePalabras (previa : Texto) : List Texto → List ℤ
  | [] => []
  | w :: ws =>
    match palabraNum.lookup w with
    | none => numerosDePalabras w ws
    | some v =>
      let v := if w = ("docena" : Texto) ∧ previa = ("media" : Texto) then 6 else v
      v :: numerosDePalabras w ws

/-- Every number of a text, in digits or in words. -/
def numerosEn (texto : Texto) : List ℤ :=
  let t := U.lower texto
  ((Texto.runs U.isDecimal t).map fun d => (U.numberOf d : ℤ)) ++
    numerosDePalabras [] (Texto.runs esLetra t)

/-! ## The filter -/

/-- `_RE_NUMERAL`. -/
def reNumeral : Re :=
  let edge := Re.wordEdge U.word
  .alt (.plus (.chr U.isDecimal)) (.all [edge, .any [
    .all [U.lit "un", .opt (.alt (U.ch 'o') (U.ch 'a'))],
    U.lit "dos", U.lit "tres", U.lit "cuatro", U.lit "cinco", U.lit "seis", U.lit "siete",
    U.lit "ocho", U.lit "nueve", U.lit "diez"], edge])

/-- A literal of a case-sensitive pattern. -/
def literal (s : String) : Re := .all (s.toList.map fun c => .chr (c = ·))

/-- `_RE_PREGUNTA_PRECIO`. -/
def rePreguntaPrecio : Re :=
  let edge := Re.wordEdge U.word
  let oneOf (s : String) : Re := .chr fun c => s.toList.contains c
  .any [.all [literal "cu", oneOf "aá", literal "nto"], literal "precio", literal "cuesta",
    literal "cuestan", .all [literal "vale", .opt (oneOf "ns"), edge], literal "me dejas",
    literal "descuento", literal "oferta", literal "stock", literal "te queda",
    literal "os queda", .all [literal "ten", oneOf "eé", literal "is"], literal "tienes",
    .all [literal "hay", edge], literal "disponib",
    .all [literal "cu", oneOf "aá", literal "ndo llega"], literal "plazo"]

/-- A text with its white space laid flat, in lower case. -/
def aplana (s : Texto) : Texto := U.lower (Texto.collapse s)

/-- Evidence that is not in the message is emptied. -/
def limpiaEvidencia (msgFlat : Texto) (a : Acto) : Acto :=
  let evFlat := aplana U a.evidencia
  if !evFlat.isEmpty && !Texto.contains msgFlat evFlat then { a with evidencia := [] } else a

/-- The numbers of an act have to be in its evidence, or in the message when it has none. -/
def compruebaNumeros (msgFlat : Texto) (a : Acto) : Acto :=
  let nums := numerosEn U (Texto.orElse (aplana U a.evidencia) msgFlat)
  let a := if a.cantidad.valor.any fun v => v ∉ nums then { a with cantidad := {} } else a
  let a := if a.tipo = .cantidadGlobal ∧ a.valor.any (fun v => v ∉ nums) then
    { a with valor := none } else a
  if a.cantidad.modo ∈ [.total, .incremento, .decremento] ∧ a.cantidad.valor = none then
    { a with cantidad := {} } else a

/-- A deletion with a numeral in its evidence will be asked about. -/
def marcaEliminar (a : Acto) : Acto :=
  if a.tipo = .modificar ∧ a.cantidad.modo = .eliminar ∧ (reNumeral U).search a.evidencia then
    { a with eliminarConNumeral := true } else a

/-- An act that touches the order needs evidence and something to tie it to. -/
def Acto.coherente (a : Acto) : Bool :=
  if a.evidencia.isEmpty ∧
      a.tipo ∈ [.pedir, .modificar, .elegir, .rechazar, .cantidadGlobal] then false
  else match a.tipo with
    | .pedir => !a.productoTexto.isEmpty
    | .modificar => !a.objetivoTexto.isEmpty
    | .elegir => !a.objetivoTexto.isEmpty
    | .cantidadGlobal => a.valor.isSome
    | _ => true

/-- An `otro` without a subtype is out of scope; a request without a number inside a
question about prices is a referral. -/
def reinterpreta (msgFlat : Texto) (a : Acto) : Acto :=
  let a := if a.tipo = .otro ∧ a.subtipo = none then { a with subtipo := some .fueraAmbito } else a
  if a.tipo = .pedir ∧ a.cantidad.valor = none ∧ (rePreguntaPrecio U).search msgFlat then
    { tipo := .otro, subtipo := some .precioStockFactura, evidencia := a.evidencia }
  else a

def validarActos (actos : List Acto) (mensaje : Texto) : List Acto :=
  let msgFlat := aplana U mensaje
  actos.filterMap fun a =>
    let a := marcaEliminar U (compruebaNumeros U msgFlat (limpiaEvidencia U msgFlat a))
    if a.coherente then some (reinterpreta U msgFlat a) else none

end Chatlink.Agent
