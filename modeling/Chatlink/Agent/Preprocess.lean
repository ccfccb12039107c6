import Chatlink.Agent.Acts

/-!
# Preprocessing

Stage 0 of a turn is purely structural: media markers are blanked, repetition marks
("ditto") are replaced by the words they stand for, the canonical global quantity and
the bulleted lines are taken out of the text, and what remains goes to the
extraction. `codesInText` finds the tokens with the shape of a product code.
-/
namespace Chatlink.Agent

open Regex

variable (U : Unicode)

/-! ## Codes -/

/-- An ASCII letter or digit. -/
def alfanum (c : Char) : Bool :=
  ('A' ≤ c && c ≤ 'Z') || ('a' ≤ c && c ≤ 'z') || ('0' ≤ c && c ≤ '9')

/-- `_RE_CODE_SHAPE`; a stripped text has no line end for `$` to skip. -/
def codeShape : Texto → Bool
  | [] => false
  | c :: t => alfanum c && 2 ≤ t.length && t.length ≤ 20 &&
      t.all fun c => alfanum c || c ∈ ['-', '.', '/']

/-- A compact token with a digit, or five digits and more. -/
def codeShaped (token : Texto) : Bool :=
  let t := Texto.strip token
  (codeShape t && t.any U.digit && !U.isdigit t) || (U.isdigit t && 5 ≤ t.length)

/-- The separators `[\s,;:()]`. -/
def separador (c : Char) : Bool := Texto.isSpace c || c ∈ [',', ';', ':', '(', ')']

def codesInText (text : Texto) : List Texto :=
  (Texto.splitOnRuns separador false [] text).filter fun t => !t.isEmpty && codeShaped U t

/-! ## Lines of a list -/

def espacios : Re := .star true (.chr Texto.isSpace)
def espacios1 : Re := .plus (.chr Texto.isSpace)

/-- The bullets `[-•*]`. -/
def vineta (c : Char) : Bool := c ∈ ['-', '•', '*']

/-- The quotes that repeat a word of the line above. -/
def comilla (c : Char) : Bool := c ∈ ['\x22', '\u201c', '\u201d', '\u00ab', '\u00bb']

/-- `_RE_DITTO`; group 1 holds the marks. -/
def reDitto : Re :=
  .all [.bos, espacios, .opt (.chr vineta), espacios, .group 1 (.any [
    .plus (.seq (.between (.chr comilla) 1 2) espacios),
    .all [U.lit "idem", .wordEdge U.word, .opt (U.ch '.')],
    .all [U.lit "ídem", .wordEdge U.word, .opt (U.ch '.')],
    .all [U.lit "id.", .chr Texto.isSpace]])]

/-- `_RE_DITTO_MARK`. -/
def reDittoMark : Re :=
  .any [.between (.chr comilla) 1 2, .seq (U.lit "idem") (.opt (U.ch '.')),
    .seq (U.lit "ídem") (.opt (U.ch '.')), U.lit "id."]

/-- `_RE_BULLET`. -/
def reBullet : Re := .all [.bos, espacios, .chr vineta, espacios]

/-- One to `n` decimal digits, as group `i`. -/
def cifras (i n : ℕ) : Re := .group i (.between (.chr U.isDecimal) 1 n)

/-- `_RE_GLOBAL_QTY`: "6 de cada uno", "de cada una 6", "todas a 6", "6 de todos". -/
def reGlobalQty : Re :=
  let oa := Re.alt (U.ch 'o') (U.ch 'a')
  .all [.bos, espacios, .any [
    .all [cifras U 1 4, espacios,
      .opt (.alt (.all [U.lit "ud", .opt (U.ch 's'), .opt (U.ch '.')])
        (.all [U.lit "unidade", .opt (U.ch 's')])),
      espacios, U.lit "de", espacios1, U.lit "cada",
      .opt (.all [espacios1, U.lit "un", oa, .opt (U.ch 's')])],
    .all [U.lit "de", espacios1, U.lit "cada", espacios1, U.lit "un", .opt oa, espacios1,
      cifras U 2 4],
    .all [U.lit "tod", oa, U.ch 's', espacios1, U.ch 'a', espacios1, cifras U 3 4],
    .all [cifras U 4 4, espacios1, U.lit "de", espacios1, U.lit "tod", oa, U.ch 's']],
    espacios, .opt (U.ch '.'), espacios, .eos]

/-- The unit after a quantity. -/
def unidad : Re :=
  .any [.all [U.lit "ud", .opt (U.ch 's')], .all [U.lit "und", .opt (U.ch 's')],
    U.lit "unidades", U.ch 'u']

/-- The quantity at the end of a line: ", 10", "x10 uds", "x10" or a loose "6". -/
def colaQty : Re :=
  .any [
    .all [.chr (fun c => c ∈ [',', ';']), espacios, cifras U 2 4, espacios, .opt (unidad U),
      .opt (U.ch '.')],
    .all [espacios1, .opt (U.ch 'x'), espacios, cifras U 3 4, espacios, unidad U,
      .opt (U.ch '.')],
    .all [espacios1, U.ch 'x', espacios, cifras U 4 4],
    .all [espacios1, cifras U 5 2]]

/-- `_RE_TRAIL_QTY`: group 1 is the name, groups 2 to 5 the quantity. -/
def reTrailQty : Re :=
  .all [.bos, .group 1 (.lazyPlus (.chr (· ≠ '\n'))), colaQty U, espacios, .eos]

/-- The line without its bullet. -/
def sinVineta (line : Texto) : Texto :=
  match reBullet.matchStart line with
  | some d => d.rest
  | none => line

/-- The characters a name is stripped of. -/
def bordeNombre : Texto := " .,;-"

/-- Name and quantity of a line of a list. -/
def parseLineaPedido (line : Texto) : Texto × Option ℤ :=
  let body := Texto.strip (sinVineta line)
  match (reTrailQty U).matchStart body with
  | some d =>
    let q := [2, 3, 4, 5].findSome? fun i => (d.get i).filter fun g => !g.isEmpty
    (Texto.stripChars bordeNombre ((d.get 1).getD []), q.map fun g => (U.numberOf g : ℤ))
  | none => (Texto.stripChars bordeNombre body, none)

/-! ## The message -/

/-- The line with its repetition marks replaced by words of the line above, if it has any. -/
def expandDittoLine (line prevExpanded : Texto) : Texto :=
  match (reDitto U).matchStart line with
  | none => line
  | some d =>
    if prevExpanded.isEmpty then line
    else
      let marks := (reDittoMark U).findAll ((d.get 1).getD [])
      let k := max 1 marks.length
      let inherited := (Texto.split (parseLineaPedido U prevExpanded).1).take k
      let rest := Texto.strip d.rest
      let bullet := match reBullet.matchStart line with
        | some b => b.pre.reverse
        | none => []
      Texto.rstrip (bullet ++ Texto.join [' '] inherited ++
        if rest.isEmpty then [] else ' ' :: rest)

/-- The lines with their marks expanded; `prev` is the last line that is not blank. -/
def expandLines (prev : Texto) : List Texto → List Texto
  | [] => []
  | ln :: lns =>
    if (Texto.strip ln).isEmpty then ln :: expandLines prev lns
    else
      let ln' := expandDittoLine U ln prev
      ln' :: expandLines (if (Texto.strip ln').isEmpty then prev else ln') lns

def mediaMarkers : List Texto :=
  ["[Texto en Imagen]:", "[Audio transcrito]:", "[Documento]:"]

/-- The message without its media markers, and whether it had one. -/
def quitaMarcadores (text : Texto) : Texto × Bool :=
  mediaMarkers.foldl
    (fun (text, media) mk =>
      if Texto.contains text mk then (Texto.replace text mk [' '], true) else (text, media))
    (text, false)

/-- The lines of the message as stage 0 reads them. -/
def lineasLeidas (mensaje : Texto) : List Texto :=
  expandLines U [] ((Texto.splitlines (quitaMarcadores mensaje).1).map Texto.rstrip)

structure PreResult where
  texto : Texto
  pedidos : List (Texto × Option ℤ × Texto)
  fuenteMedia : Bool
  cantidadGlobal : Option ℤ

/-- The value of a canonical global quantity. -/
def globalQty (ln : Texto) : Option ℤ :=
  ((reGlobalQty U).matchStart ln).bind fun d =>
    ([1, 2, 3, 4].findSome? fun i => (d.get i).filter fun g => !g.isEmpty).map
      fun g => (U.numberOf g : ℤ)

/-- What a line is consumed as. -/
inductive Renglon where
  | global (q : ℤ)
  | pedido (nombre : Texto) (qty : Option ℤ) (linea : Texto)
  | lenguaje (linea : Texto)

def clasifica (ln : Texto) : Renglon :=
  match globalQty U ln with
  | some q => .global q
  | none =>
    if (reBullet.matchStart ln).isSome then
      let (nombre, qty) := parseLineaPedido U ln
      if nombre.isEmpty then .lenguaje ln else .pedido nombre qty (Texto.strip ln)
    else .lenguaje ln

def preprocesar (mensaje : Texto) : PreResult :=
  let renglones := (lineasLeidas U mensaje).map (clasifica U)
  { texto := Texto.strip (Texto.join ['\n'] (renglones.filterMap fun
      | .lenguaje ln => some ln
      | _ => none))
    pedidos := renglones.filterMap fun
      | .pedido nombre qty ln => some (nombre, qty, ln)
      | _ => none
    fuenteMedia := (quitaMarcadores mensaje).2
    -- the last canonical quantity of the message counts
    cantidadGlobal := (renglones.filterMap fun
      | .global q => some q
      | _ => none).getLast? }

end Chatlink.Agent
