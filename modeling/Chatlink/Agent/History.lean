import Chatlink.Agent.ResolverSteps

/-!
# The client's order history

What the resolver searches (`ai/rag.py`, `_build_rag_candidates` of `handlers.py`): the words a
client picked a product by before, and then the articles of his own orders. An article matches by
the words of the request it covers; the most frequently ordered come first and only the first few
are handed on.
-/
namespace Chatlink.Agent

/-! ## Articles -/

/-- One article of a client's history. The last order is its time stamp. -/
structure ProductRow where
  codigo : Texto
  nombre : Texto := []
  nombresHistoricos : List Texto := []
  marca : Texto := []
  refCliente : Texto := []
  veces : ℤ := 0
  ultimaFecha : Option ℤ := none
  botVisible : Bool := true
  deriving DecidableEq, Repr

/-- Every piece of text by which the article can be named. -/
def ProductRow.searchableText (p : ProductRow) : Texto :=
  Texto.join [' '] (([p.codigo, p.nombre] ++ p.nombresHistoricos ++ [p.marca, p.refCliente]).filter
    fun t => !t.isEmpty)

/-- A cached history: one row for each article, and each with its code. -/
structure Historial where
  filas : List ProductRow
  unicos : (filas.map ProductRow.codigo).Nodup
  conCodigo : ∀ p ∈ filas, p.codigo ≠ []

structure HistoryMatch where
  codigo : Texto
  nombre : Texto
  marca : Texto
  veces : ℤ
  ultimaFecha : Option ℤ
  covered : List Texto
  uncovered : List Texto
  headMatch : Bool
  fullCoverage : Bool
  deriving DecidableEq, Repr

inductive Verdict where
  | none
  | resolved
  | ambiguous
  | partialMatch
  | blocked
  deriving DecidableEq, Repr

structure HistoryResolution where
  verdict : Verdict := .none
  matched : List HistoryMatch := []
  blocked : List HistoryMatch := []

/-! ## Matching -/

/-- The client's token appears in the product, across languages. -/
def covers (token : Texto) (docTokens : List Texto) : Bool :=
  (variants token).any fun v => docTokens.contains v

variable (U : Unicode)

/-- The distinct content words of a request. -/
def palabras (query : Texto) : List Texto := (tokenize U query).eraseDups

/-- The match of one article, when it covers any of the words. -/
def historyMatch (q : List Texto) (p : ProductRow) : Option HistoryMatch :=
  let docTokens := tokenize U p.searchableText
  let covered := q.filter fun t => covers t docTokens
  if covered.isEmpty then none
  else some {
    codigo := p.codigo, nombre := p.nombre, marca := p.marca, veces := p.veces,
    ultimaFecha := p.ultimaFecha, covered := covered,
    uncovered := q.filter fun t => !covered.contains t,
    headMatch := covers (q.headD []) docTokens,
    fullCoverage := covered.length = q.length }

/-- Most words covered, then the head noun, then ordered more often, then more recent. -/
def HistoryMatch.sortKey (m : HistoryMatch) : List ℤ :=
  [-m.covered.length, -(if m.headMatch then 1 else 0), -m.veces, -(m.ultimaFecha.getD 0)]

def HistoryMatch.antes (a b : HistoryMatch) : Prop := a.sortKey ≤ b.sortKey

instance (a b : HistoryMatch) : Decidable (a.antes b) :=
  inferInstanceAs (Decidable (a.sortKey ≤ b.sortKey))

/-- `ClientHistoryRetriever.match`. -/
def matchHistory (query : Texto) (products : List ProductRow) (limit : ℕ) : HistoryResolution :=
  let q := palabras U query
  let scored := (products.filter ProductRow.botVisible).filterMap (historyMatch U q)
  let hidden := (products.filter fun p => !p.botVisible).filterMap (historyMatch U q)
  let blocked := (hidden.filter HistoryMatch.fullCoverage).take limit
  if q.isEmpty then {}
  else if scored.isEmpty then
    { verdict := if blocked.isEmpty then .none else .blocked, blocked := blocked }
  else
    let scored := scored.insertionSort HistoryMatch.antes
    match scored.filter HistoryMatch.fullCoverage with
    | [m] => { verdict := .resolved, matched := [m], blocked := blocked }
    | m :: ms =>
      { verdict := .ambiguous, matched := (m :: ms).take limit, blocked := blocked }
    | [] =>
      if blocked.isEmpty then
        { verdict := .partialMatch, matched := scored.take limit, blocked := blocked }
      else { verdict := .blocked, blocked := blocked }

/-! ## Candidates of a request -/

/-- `RAG_TOP_K`, at its default. -/
def ragTopK : ℕ := 5

/-- The client's own words for a product he picked. -/
structure ClientAlias where
  aliasText : Texto
  code : Texto
  name : Texto
  deriving DecidableEq, Repr

/-- What is known of a client: his aliases, and his history when it can be read. -/
structure Ficha where
  aliases : List ClientAlias
  historial : Option Historial

/-- One history match in the shape of a search hit. -/
def historyHit (m : HistoryMatch) : Hit :=
  { codigoArticulo := m.codigo, descripcionArticulo := m.nombre, marcaProducto := m.marca,
    fuente := "pedidos", fechaAlta := [], coversQuery := true }

def aliasHit (a : ClientAlias) : Hit :=
  { codigoArticulo := a.code, descripcionArticulo := a.name, marcaProducto := [],
    fuente := "alias", fechaAlta := [], coversQuery := true }

/-- The hits a verdict hands on; near misses go out as not covering the request. -/
def HistoryResolution.hits (r : HistoryResolution) (topK : ℕ) : List Hit :=
  match r.verdict with
  | .resolved | .ambiguous => (r.matched.take topK).map historyHit
  | .partialMatch => (r.matched.take topK).map fun m => { historyHit m with coversQuery := false }
  | .blocked => (r.blocked.take topK).map historyHit
  | .none => []

/-- The alias that is the text of a request. -/
def Ficha.aliasDe (f : Ficha) (q : Texto) : Option ClientAlias :=
  f.aliases.reverse.find? fun a => a.aliasText = normalizeText U q

/-- `_build_rag_candidates`: nothing without a client code, an alias before the history. -/
def buildRagCandidates (cliente : Option Ficha) (queries : List Texto) (q : Texto) : List Hit :=
  if !queries.contains q || (Texto.strip q).isEmpty then []
  else
    match cliente with
    | none => []
    | some f =>
      match f.aliasDe U q, f.historial with
      | some a, _ => [aliasHit a]
      | none, none => []
      | none, some h => (matchHistory U q h.filas ragTopK).hits ragTopK

end Chatlink.Agent
