import Chatlink.Text.Python

/-!
# The lexicon

How a client's wording is compared with a product name (`ai/rag.py`): both are
folded to normalized singular tokens, a token stands for its class of variants
(Spanish, English and plural forms), and candidates are ranked by the words they
explain and then by the words they add.
-/
namespace Chatlink.Agent

variable (U : Unicode)

def spanishStopwords : List Texto :=
  (["para", "con", "una", "uno", "unos", "unas", "del", "las", "los", "que", "este", "esta",
    "estos", "estas", "por", "como", "mas", "muy", "sin", "sobre", "entre", "hasta", "desde",
    "cuando", "donde", "quiero", "quisiera", "necesito", "busco", "tienes", "tiene", "hay", "algo",
    "algun", "alguna", "dime", "cual", "cuales", "dos", "tres", "cuatro", "cinco", "seis", "siete",
    "ocho", "nueve", "diez", "docena", "media", "quiero", "ponme", "apunta", "apuntame", "dame",
    "mismo", "misma", "vez"] : List String).map String.toList

/-- Pairs of normalized singular tokens, Spanish first. -/
def bilingualPairs : List (Texto × Texto) :=
  ([("brocha", "brush"), ("pincel", "brush"), ("crema", "cream"),
    ("esmalte", "polish"), ("quitaesmalte", "remover"), ("uña", "nail"),
    ("labio", "lip"), ("labial", "lipstick"), ("pestaña", "lash"),
    ("ceja", "brow"), ("pelo", "hair"), ("cabello", "hair"),
    ("piel", "skin"), ("mano", "hand"), ("pie", "foot"), ("ojo", "eye"),
    ("cara", "face"), ("rostro", "face"), ("cuerpo", "body"),
    ("jabon", "soap"), ("aceite", "oil"), ("polvo", "powder"),
    ("sombra", "shadow"), ("colorete", "blush"), ("rimel", "mascara"),
    ("delineador", "liner"), ("mascarilla", "mask"), ("champu", "shampoo"),
    ("acondicionador", "conditioner"), ("hidratante", "moisturizer"),
    ("limpiador", "cleanser"), ("exfoliante", "scrub"), ("brillo", "gloss"),
    ("mate", "matte"), ("lima", "file"), ("tijera", "scissors"),
    ("pinza", "tweezers"), ("toalla", "towel"), ("algodon", "cotton"),
    ("guante", "glove"), ("secador", "dryer"), ("caja", "box"),
    ("negro", "black"), ("blanco", "white"), ("rojo", "red"),
    ("rosa", "pink"), ("azul", "blue"), ("verde", "green"),
    ("dorado", "gold"), ("plateado", "silver"), ("morado", "purple"),
    ("violeta", "purple"), ("marron", "brown"), ("gris", "grey"),
    ("transparente", "clear"), ("fuerte", "strong"), ("suave", "soft")] :
    List (String × String)).map fun (es, en) => (es.toList, en.toList)

/-- The translations of a token, `_XLATE`. -/
def xlate (token : Texto) : List Texto :=
  bilingualPairs.filterMap fun (es, en) =>
    if es = token then some en else if en = token then some es else none

/-- Accents go, `ñ` stays: it waits as a control character while the text is decomposed. -/
def stripAccents (s : Texto) : Texto :=
  let s := s.map fun c => if c = 'ñ' then '\x00' else if c = 'Ñ' then '\x01' else c
  let s := (U.nfd s).filter fun c => !U.mark c
  s.map fun c => if c = '\x00' then 'ñ' else if c = '\x01' then 'Ñ' else c

def singularize (token : Texto) : Texto :=
  if 3 < token.length ∧ ['s'] <:+ token ∧ ¬ ['s', 's'] <:+ token then token.dropLast else token

def normalizeText (s : Texto) : Texto :=
  let s := stripAccents U (U.lower s)
  let s := s.map fun c => if c ∈ ['/', '\\', '_', '-'] then ' ' else c
  let s := Texto.collapseBy (fun c => !U.word c) false s
  Texto.strip (Texto.collapse s)

def tokenize (s : Texto) : List Texto :=
  let tokens := if s.isEmpty then [] else Texto.splitChar ' ' [] (normalizeText U s)
  tokens.filterMap fun t =>
    if !(3 ≤ t.length && t.length ≤ 40) || spanishStopwords.contains t then none
    else
      let t := singularize t
      if spanishStopwords.contains t then none else some t

/-- The token, its translations, and the other side of a plural in `-es`. -/
def variants (token : Texto) : List Texto :=
  let liquid : Option Char → Bool := fun c => c.any fun c => c ∈ ['l', 'r', 'n', 'd']
  let plural :=
    if 4 < token.length ∧ token.getLast? = some 'e' ∧ liquid token.dropLast.getLast? then
      [token.dropLast]
    else if 3 < token.length ∧ liquid token.getLast? then [token ++ ['e']]
    else []
  token :: xlate token ++ plural

/-- An entry of the ranking: key, covered words, extra words. -/
structure Rango where
  key : Texto
  covered : ℕ
  extra : ℕ
  deriving DecidableEq, Repr

/-- More of the client's words first, then fewer words of its own. -/
def Rango.antes (a b : Rango) : Prop :=
  b.covered < a.covered ∨ (a.covered = b.covered ∧ a.extra ≤ b.extra)

instance (a b : Rango) : Decidable (a.antes b) := inferInstanceAs (Decidable (_ ∨ _))

/-- Rank the candidates `(key, coverage text, name)` for a query. -/
def coverageRank (query : Texto) (items : List (Texto × Texto × Texto)) : List Rango :=
  let q := (tokenize U query).eraseDups
  if q.isEmpty then items.map fun (k, _, _) => ⟨k, 0, 0⟩
  else
    let wanted := q.flatMap variants
    let ranked := items.map fun (key, coverText, name) =>
      let doc := tokenize U coverText
      let covered := q.countP fun t => (variants t).any fun v => doc.contains v
      let extra := ((tokenize U (Texto.orElse name coverText)).filter
        fun t => !wanted.contains t).eraseDups.length
      (⟨key, covered, extra⟩ : Rango)
    ranked.insertionSort Rango.antes

end Chatlink.Agent
