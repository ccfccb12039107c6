import Chatlink.Agent.Lexicon
import Chatlink.Agent.Preprocess

/-!
# Resolution of references

`resolver` turns the acts of a message into operations of the reducer. References to
the cart, the options and the open products are tied inside closed spaces; what the
client asks for goes to the code lookup or to the search, and only the ambiguous rest
to the match model. The search, the lookup and the match are parameters. An open
product is a dictionary shared with the state, so the resolver can set its quantity:
products are named by their position and the list of them is handed on.
-/
namespace Chatlink.Agent

/-! ## What the resolver asks for -/

/-- A row of the search. -/
structure Hit where
  codigoArticulo : Texto
  descripcionArticulo : Texto
  marcaProducto : Texto
  fuente : Texto
  fechaAlta : Texto
  coversQuery : Bool
  deriving DecidableEq, Repr

/-- A row of the code lookup. -/
structure Articulo where
  code : Texto
  name : Texto
  brand : Texto
  deriving DecidableEq, Repr

/-- One question to the match model. -/
structure Pregunta where
  i : ℕ
  texto : Texto
  opciones : List Texto
  deriving DecidableEq, Repr

inductive Juicio where
  | unico
  | varios
  | ninguno
  deriving DecidableEq, Repr

structure Veredicto where
  item : ℤ
  veredicto : Juicio
  indice : Option ℤ
  deriving DecidableEq, Repr

/-- The services a turn calls; `codeLookup` may be missing and `matchCall` may fail. -/
structure Entorno where
  search : List Texto → Texto → List Hit
  codeLookup : Option (List Texto → Texto → Option Articulo)
  matchCall : List Pregunta → Option (List Veredicto)

/-- `PIPE_MATCH_MAX_ITEMS` and `PIPE_MAX_OPCIONES`, at their defaults. -/
def matchMaxItems : ℕ := 5
def maxOpciones : ℕ := 4

variable (U : Unicode)

/-! ## Tying a text inside a closed space -/

/-- Key, text to match, object. -/
abbrev Espacio (α : Type) := List (Texto × Texto × α)

structure Ligado (α : Type) where
  unico : Option α := none
  varios : List α := []

/-- `by_key[k]`: a later entry of the same key replaces an earlier one. -/
def porClave {α : Type} (espacio : Espacio α) (k : Texto) : Option α :=
  (espacio.reverse.find? fun e => e.1 = k).map fun e => e.2.2

/-- The entries of full rank: the most covered words, then the fewest extra words. -/
def mejores (ranked : List Rango) : List Rango :=
  let top := (ranked.head?.map Rango.covered).getD 0
  let best := ranked.filter fun r => r.covered = top
  let minExtra := ((best.map Rango.extra).min?).getD 0
  if top = 0 then [] else best.filter fun r => r.extra = minExtra

def ligar {α : Type} (texto : Texto) (espacio : Espacio α) : Ligado α :=
  if (tokenize U texto).isEmpty then {}
  else
    match mejores (coverageRank U texto (espacio.map fun (k, t, _) => (k, t, t))) with
    | [r] => { unico := porClave espacio r.key }
    | best => { varios := best.filterMap fun r => porClave espacio r.key }

/-- A code together with a name, as the spaces are searched. -/
def textoLigable (name code : Texto) : Texto := name ++ ' ' :: code

def cartSpace (cart : List Linea) : Espacio Linea :=
  cart.map fun l => (l.code, textoLigable l.name l.code, l)

/-- The live options, each with the position of its product. -/
def opcionesSpace (prods : List Producto) : Espacio (ℕ × Opcion) :=
  prods.zipIdx.flatMap fun (p, i) =>
    p.opciones.map fun o => (o.code, textoLigable o.name o.code, i, o)

def itemSpace (prods : List Producto) : Espacio ℕ :=
  prods.zipIdx.map fun (p, i) => (p.texto, p.texto, i)

/-! ## Candidates -/

def hitOpt (h : Hit) : Opcion :=
  ⟨h.codigoArticulo, h.descripcionArticulo, h.marcaProducto, Texto.orElse h.fuente "pedidos",
    h.fechaAlta, []⟩

def minTexto : List Texto → Texto
  | [] => []
  | t :: ts => ts.foldl (fun m s => if s < m then s else m) t

/-- The tokens of a name, each folded to the least of its variants. -/
def canonTokens (name : Texto) : List Texto :=
  (tokenize U name).map fun t => minTexto (variants t)

/-- Proper inclusion of sets of tokens. -/
def propio (a b : List Texto) : Bool := a.all b.contains && !b.all a.contains

/-- D5: strictly dominated candidates are dropped. -/
def dominancia (cands : List Opcion) : List Opcion :=
  let keep := cands.filter fun b =>
    !cands.any fun a => propio (canonTokens U a.name) (canonTokens U b.name)
  if keep.isEmpty then cands else keep

/-- One entry for each code, none for the empty one. -/
def dedup : List Texto → List Opcion → List Opcion
  | _, [] => []
  | vistos, c :: cs =>
    if c.code.isEmpty || vistos.contains c.code then dedup vistos cs
    else c :: dedup (c.code :: vistos) cs

def normNombre (name : Texto) : Texto :=
  Texto.join [' '] (Texto.split ((U.nfkd (U.lower name)).filter fun c => !U.combining c))

/-- The newest of a group, or its first when no date is known. -/
def masNuevo : List Opcion → Option Opcion
  | [] => none
  | c :: cs => some (cs.foldl (fun best d => if best.fecha < d.fecha then d else best) c)

/-- Codes with one and the same name collapse to the newest. -/
def colapsarGemelos (cands : List Opcion) : List Opcion :=
  (cands.map fun c => normNombre U c.name).eraseDups.filterMap fun k =>
    masNuevo (cands.filter fun c => normNombre U c.name = k)

def esTester (c : Opcion) : Bool :=
  let name := U.upper c.name
  let code := U.upper c.code
  Texto.contains name "TESTER" || Texto.contains (' ' :: name ++ [' ']) " TEST " ||
    code.getLast? = some 'T'

/-- A filter that only prunes while something is left. -/
def poda (p : Opcion → Bool) (cands : List Opcion) : List Opcion :=
  let kept := cands.filter p
  if kept.isEmpty then cands else kept

/-- The three-digit reference numbers of a text. -/
def numsRef (texto : Texto) : List Texto :=
  (Texto.runs (fun c => '0' ≤ c && c ≤ '9') texto).filter fun t => t.length = 3

/-- The candidates for a product text, pruned. -/
def candidatos (texto : Texto) (rechazados : List Texto) (hits : List Hit) : List Opcion :=
  let full := hits.filter Hit.coversQuery
  let cands := dedup [] (dominancia U ((if full.isEmpty then hits else full).map hitOpt))
  let cands := cands.filter fun c => !c.code.isEmpty && !rechazados.contains c.code
  let typed := codesInText U texto
  let cands := if cands.any fun c => typed.contains c.code then cands else colapsarGemelos U cands
  let pidioTester := Texto.contains (U.lower texto) "tester" || Texto.contains (U.lower texto) "test"
  let cands := if pidioTester then cands else poda (fun c => !esTester U c) cands
  let nums := numsRef texto
  if nums.isEmpty then cands
  else poda (fun c => nums.any fun n => Texto.contains c.name n) cands

/-- Equal sets of tokens. -/
def mismoSet (a b : List Texto) : Bool := a.all b.contains && b.all a.contains

/-- Each option is named by what sets it apart; the flag says that nothing does. -/
def distintivos (opciones : List Opcion) : List Opcion × Bool :=
  if opciones.length < 2 then (opciones, false)
  else
    let sets := opciones.map fun o => canonTokens U o.name
    if sets.all fun s => mismoSet s (sets.headD []) then (opciones, true)
    else
      let inter := (sets.headD []).filter fun t => sets.all fun s => s.contains t
      (opciones.map fun o =>
        { o with distintivo := Texto.join [' '] (((tokenize U o.name).filter fun t =>
            !inter.contains (minTexto (variants t))).take 4) }, false)

/-! ## One act -/

/-- The answer to a live quantity conflict, when the text is a number it offers. -/
def respuestaConflicto (conflictos : List Conflicto) (texto : Texto) :
    Except PyError (Option Op) :=
  let num := Texto.strip texto
  if U.isdigit num && !conflictos.isEmpty then
    match U.intOf num with
    | none => .error .valueError
    | some n => .ok ((conflictos.find? fun c => n ∈ c.opcionesQty).map fun c => .eligeQty c.code n)
  else .ok none

/-- The operation that picks the option `o` of the open product `texto`. -/
def opElige (texto : Texto) (o : Opcion) : Op := .elige texto o.code o.name o.brand o.fuente

/-- The text of the product at a position. -/
def textoDe (prods : List Producto) (i : ℕ) : Texto := ((prods[i]?).map Producto.texto).getD []

def resuelveModificar (e : Estado) (a : Acto) : Op :=
  let lig := ligar U a.objetivoTexto (cartSpace e.cart)
  let unico := match lig.unico, lig.varios, e.cart with
    -- "quítalo" with a single line in the cart
    | none, [], [l] => some l
    | u, _, _ => u
  match unico with
  | none => .referenciaAmbigua a.objetivoTexto
      (lig.varios.map fun l => Texto.orElse l.name l.code)
  | some l => .modificar l.code l.name a.cantidad.modo a.cantidad.valor a.eliminarConNumeral
      a.cantidad.valor

/-- The `elegir` of an option: by a code typed among the options, or by description. A
code that is not among them is handed on as a request. -/
def resuelveElegir (prods : List Producto) (a : Acto) : List Op × List Acto :=
  let typed := codesInText U a.objetivoTexto
  let espacio := opcionesSpace prods
  if typed.isEmpty then
    let lig := ligar U a.objetivoTexto espacio
    match lig.unico with
    | some (i, o) => ([opElige (textoDe prods i) o], [])
    | none => ([.referenciaAmbigua a.objetivoTexto
        (lig.varios.map fun (_, o) => Texto.orElse o.name o.code)], [])
  else
    match espacio.find? fun e => typed.contains e.1 with
    | some (_, _, i, o) => ([opElige (textoDe prods i) o], [])
    | none => ([], [{ tipo := .pedir, evidencia := a.evidencia,
                      productoTexto := a.objetivoTexto, cantidad := a.cantidad }])

/-- The operations of one act, and the request it leaves for the retrieval. -/
def resuelveActo (e : Estado) (a : Acto) : Except PyError (List Op × List Acto) :=
  let prods := e.productosAbiertos
  match a.tipo with
  | .pedir => do
    match ← respuestaConflicto U e.conflictos a.productoTexto with
    | some op => return ([op], [])
    | none => return ([], [a])
  | .modificar => .ok ([resuelveModificar U e a], [])
  | .elegir => do
    match ← respuestaConflicto U e.conflictos a.objetivoTexto with
    | some op => return ([op], [])
    | none => return resuelveElegir U prods a
  | .rechazar =>
    let objetivo := if a.objetivoTexto.isEmpty then none
      else (ligar U a.objetivoTexto (itemSpace prods)).unico.map (textoDe prods)
    .ok ([.rechazo objetivo], [])
  | .cantidadGlobal => .ok ([.cantidadGlobal a.valor], [])
  | .repetirUltimo => .ok ([.repetirUltimo
      (if a.cantidad.modo = .total then a.cantidad.valor else none)], [])
  | .confirmar => .ok ([.confirmar], [])
  | .cerrar => .ok ([.cerrar], [])
  | .negar => .ok ([.negar], [])
  | .otro => .ok ([.otro (a.subtipo.getD .fueraAmbito)], [])

/-! ## Requests -/

/-- `it["qty"] = valor` on the product at a position, when the act has a number. -/
def ponItemQty (prods : List Producto) (i : ℕ) (valor : Option ℤ) : List Producto :=
  match valor with
  | none => prods
  | some v => prods.modify i fun p => { p with qty := some v }

/-- A request whose text holds the code of a live option picks it; the others stay. -/
def eligePorCodigo (espacio : Espacio (ℕ × Opcion)) :
    List Producto → List Acto → List Producto × List Op × List Acto
  | prods, [] => (prods, [], [])
  | prods, a :: as =>
    let typed := codesInText U a.productoTexto
    match espacio.find? fun e => typed.contains e.1 with
    | some (_, _, i, o) =>
      let (prods', ops, resto) := eligePorCodigo espacio (ponItemQty prods i a.cantidad.valor) as
      (prods', opElige (textoDe prods i) o :: ops, resto)
    | none =>
      let (prods', ops, resto) := eligePorCodigo espacio prods as
      (prods', ops, a :: resto)

/-- A request tied to the open product it adds to, `_open_item`. -/
structure Peticion where
  acto : Acto
  item : Option ℕ := none

/-- Ties each request to an open product of its wording, and sets that one's quantity. -/
def enriquece : List Producto → List Acto → List Producto × List Peticion
  | prods, [] => (prods, [])
  | prods, a :: as =>
    match (ligar U a.productoTexto (itemSpace prods)).unico with
    | some i =>
      let (prods', ps) := enriquece (ponItemQty prods i a.cantidad.valor) as
      (prods', ⟨a, some i⟩ :: ps)
    | none =>
      let (prods', ps) := enriquece prods as
      (prods', ⟨a, none⟩ :: ps)

/-- The code a request asks for by itself: its text is that code and little else. -/
def codigoTecleado (a : Acto) : Option Texto :=
  let enTexto := codesInText U a.productoTexto
  let codes := if enTexto.isEmpty then codesInText U a.evidencia else enTexto
  if (tokenize U a.productoTexto).length ≤ 1 then codes.head? else none

/-- An assignment to an ordered dictionary. -/
def asigna {α : Type} (k : Texto) (v : α) : List (Texto × α) → List (Texto × α)
  | [] => [(k, v)]
  | (k', v') :: d => if k' = k then (k', v) :: d else (k', v') :: asigna k v d

/-- The requests by code, by code, and the rest. -/
def separaCodigos (ps : List Peticion) : List (Texto × Peticion) × List Peticion :=
  (ps.foldl (fun d p => match codigoTecleado U p.acto with
      | some c => asigna c p d
      | none => d) [],
    ps.filter fun p => (codigoTecleado U p.acto).isNone)

def opDeCodigo (found : Texto → Option Articulo) (typed : Texto × Peticion) : Op :=
  match found typed.1 with
  | some row => .add (Texto.orElse row.code typed.1) row.name row.brand
      typed.2.acto.cantidad.valor "codigo_cliente"
  | none => .codigoNoExiste typed.1

/-- The operations of the typed codes and the requests for the search. Without a lookup
the typed codes go to the search too. -/
def resuelveCodigos (E : Entorno) (ps : List Peticion) : List Op × List Peticion :=
  let (typed, conTexto) := separaCodigos U ps
  match E.codeLookup with
  | some lookup => (typed.map (opDeCodigo (lookup (typed.map Prod.fst))), conTexto)
  | none => ([], conTexto ++ typed.map Prod.snd)

/-! ## Retrieval and match -/

/-- What a request has become after the search: an operation, or a question for the
match model. -/
inductive Hallazgo where
  | op (op : Op)
  | ambiguo (texto : Texto) (qty : Option ℤ) (opciones : List Opcion) (itemPrev : Option ℕ)

/-- The operation that takes the candidate `c`: a pick of the open product the request
was tied to, or a new line. -/
def opToma (prods : List Producto) (item : Option ℕ) (c : Opcion) (qty : Option ℤ) : Op :=
  match item with
  | some i => opElige (textoDe prods i) c
  | none => .add c.code c.name c.brand qty c.fuente

/-- The quantity of a request, its own or that of the product it adds to. -/
def Peticion.qty (prods : List Producto) (p : Peticion) : Option ℤ :=
  p.acto.cantidad.valor.orElse fun _ => (p.item.bind fun i => prods[i]?).bind Producto.qty

def busca (prods : List Producto) (hits : List Hit) (p : Peticion) : Hallazgo :=
  let texto := p.acto.productoTexto
  let qty := p.qty prods
  let rechazados := (((p.item.bind fun i => prods[i]?).map Producto.rechazados).getD [])
  let hayFull := hits.any Hit.coversQuery
  let cands := candidatos U texto rechazados hits
  let typed := codesInText U texto
  match cands with
  | [] => .op (.sinCandidatos texto qty)
  | c :: cs =>
    match (c :: cs).find? fun c => typed.contains c.code with
    | some exact => .op (opToma prods p.item exact qty)
    | none =>
      if cs.isEmpty && hayFull then .op (opToma prods p.item c qty)
      else
        let (opciones, indist) := distintivos U ((c :: cs).take maxOpciones)
        if indist || !hayFull then .op (.opciones texto qty opciones indist)
        else .ambiguo texto qty opciones p.item

/-- The option a verdict points at. -/
def elegida (opciones : List Opcion) (v : Option Veredicto) : Option Opcion :=
  v.bind fun v => match v.veredicto, v.indice with
    | .unico, some n => if 0 ≤ n then opciones[n.toNat]? else none
    | _, _ => none

/-- The operation of an ambiguous request under its verdict. -/
def opDeVeredicto (prods : List Producto) (v : Option Veredicto) : Hallazgo → Op
  | .op op => op
  | .ambiguo texto qty opciones item =>
    match elegida opciones v with
    | some c => opToma prods item c qty
    | none =>
      if v.any fun v => v.veredicto = .ninguno then .sinCandidatos texto qty
      else .opciones texto qty opciones false

def Hallazgo.op? : Hallazgo → Option Op
  | .op o => some o
  | _ => none

/-- The questions of the first ambiguous requests. -/
def preguntas (ambiguos : List Hallazgo) : List Pregunta :=
  (ambiguos.take matchMaxItems).zipIdx.filterMap fun
    | (.ambiguo texto _ opciones _, i) => some ⟨i, texto, opciones.map Opcion.name⟩
    | _ => none

/-- The verdict on the question at a position; a later verdict replaces an earlier one. -/
def veredictoDe (verdicts : Option (List Veredicto)) (i : ℕ) : Option Veredicto :=
  if i < matchMaxItems then (verdicts.getD []).reverse.find? fun v => v.item = i else none

def casa (E : Entorno) (prods : List Producto) (hallazgos : List Hallazgo) : List Op :=
  let ambiguos := hallazgos.filter fun h => h.op?.isNone
  let verdicts := if ambiguos.isEmpty then none else E.matchCall (preguntas ambiguos)
  hallazgos.filterMap Hallazgo.op? ++
    ambiguos.zipIdx.map fun (x, i) => opDeVeredicto prods (veredictoDe verdicts i) x

/-- The products of the state with the quantities the resolver gave them. -/
def conProductos : List Item → List Producto → List Item
  | .producto _ :: is, p :: ps => .producto p :: conProductos is ps
  | i :: is, ps => i :: conProductos is ps
  | [], _ => []

def resolver (E : Entorno) (actos : List Acto) (e : Estado) : Except PyError (List Op × Estado) := do
  let rs ← actos.mapM (resuelveActo U e)
  let prods := e.productosAbiertos
  let (prods, ops2, pedir) := eligePorCodigo U (opcionesSpace prods) prods (rs.flatMap Prod.snd)
  let (prods, peticiones) := enriquece U prods pedir
  let (ops3, conTexto) := resuelveCodigos U E peticiones
  let results := if conTexto.isEmpty then fun _ => []
    else E.search (conTexto.map fun p => p.acto.productoTexto)
  let hallazgos := conTexto.map fun p => busca U prods (results p.acto.productoTexto) p
  return (rs.flatMap Prod.fst ++ ops2 ++ ops3 ++ casa E prods hallazgos,
    { e with openItems := conProductos e.openItems prods })

end Chatlink.Agent
