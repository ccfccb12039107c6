import Chatlink.Text.Spans

/-!
# Who a phone belongs to

`resolveClientByPhone` asks SAGE for the clients that have the last nine digits of a
phone in one of their columns and settles between them in two tiers: the numbers that
end in those digits, and only if there is none those that contain them. Several rows of
one client are no ambiguity; several clients are, and then no code is returned.

The order of the rows is that of the server's collation, so it is a parameter.
-/
namespace Chatlink.Identity

/-- A row of `Clientes`; an absent column reads as empty. -/
structure MSClient where
  codigoCliente : Texto
  codigoEmpresa : ℤ
  nombre : Texto := []
  telefono : Texto := []
  telefono2 : Texto := []
  telefono3 : Texto := []
  deriving DecidableEq, Repr

namespace MSClient

def telefonos (r : MSClient) : List Texto := [r.telefono, r.telefono2, r.telefono3]

/-- The code as it is compared. -/
def code (r : MSClient) : Texto := Texto.strip r.codigoCliente

end MSClient

inductive Source where
  | sim
  | sage
  | none
  deriving DecidableEq, Repr

inductive MatchKind where
  | suffix
  | contains
  | email
  | sim
  | none
  deriving DecidableEq, Repr

structure ClientIdentity where
  client : Option MSClient := none
  code : Option Texto := none
  unique : Bool := false
  source : Source := .none
  matchKind : MatchKind := .none
  candidateCodes : List Texto := []
  deriving DecidableEq, Repr

namespace ClientIdentity

def found (i : ClientIdentity) : Bool := i.client.isSome

/-- The order history is read only for an unambiguous code. -/
def historyAllowed (i : ClientIdentity) : Bool := i.code.any (fun c => !c.isEmpty) && i.unique

end ClientIdentity

/-- The distinct codes of some rows, in order. -/
def candidateCodes (rows : List MSClient) : List Texto :=
  rows.foldl (fun codes r =>
    if !r.code.isEmpty && !codes.contains r.code then codes ++ [r.code] else codes) []

/-- `_pick_identity`. -/
def pickIdentity (rows : List MSClient) (kind : MatchKind) : ClientIdentity :=
  match rows with
  | [] => {}
  | r :: _ =>
    let codes := candidateCodes rows
    let unique := codes.length = 1
    { client := some r, code := if unique then codes.head? else none, unique := unique
      source := .sage, matchKind := kind, candidateCodes := codes }

/-- The punctuation that is stripped on both sides. -/
def phonePunct : List Char := [' ', '-', '.', '(', ')', '+', '/']

def maxCandidateRows : ℕ := 25

/-- `_strip_punct_sql`: one `REPLACE` for each character. -/
def stripPunctSql (t : Texto) : Texto :=
  phonePunct.foldl (fun t c => t.filter fun d => d ≠ c) t

section Phone

variable (U : Unicode)

/-- `re.sub(r"\D", "", s)`. -/
def onlyDigits (s : Texto) : Texto := s.filter U.isDecimal

/-- Loose matching: the last nine digits. -/
def normPhone (phone : Texto) : Texto :=
  let digits := onlyDigits U phone
  if 9 ≤ digits.length then digits.drop (digits.length - 9) else digits

/-- The `WHERE` of the query: `LIKE '%term%'` over the stripped columns. -/
def enConsulta (term : Texto) (r : MSClient) : Bool :=
  r.telefonos.any fun t => Texto.contains (stripPunctSql t) term

/-- The rows the query returns. -/
def candidatos (orden : MSClient → MSClient → Bool) (tabla : List MSClient) (term : Texto) :
    List MSClient :=
  ((tabla.filter (enConsulta term)).mergeSort orden).take maxCandidateRows

/-- A number of the row ends in the term. -/
def terminaEn (term : Texto) (r : MSClient) : Bool :=
  (r.telefonos.map (onlyDigits U)).any fun v => !v.isEmpty && term.isSuffixOf v

/-- A number of the row contains the term. -/
def contiene (term : Texto) (r : MSClient) : Bool :=
  (r.telefonos.map (onlyDigits U)).any fun v => !v.isEmpty && Texto.contains v term

def resolveClientByPhone (orden : MSClient → MSClient → Bool) (tabla : List MSClient)
    (phone : Texto) : ClientIdentity :=
  let term := normPhone U phone
  if term.length < 9 then {}
  else
    let rows := candidatos orden tabla term
    let suffixRows := rows.filter (terminaEn U term)
    let containsRows := rows.filter fun r => !terminaEn U term r && contiene U term r
    let ident := if suffixRows.isEmpty then pickIdentity containsRows .contains
      else pickIdentity suffixRows .suffix
    if ident.found then ident else {}

end Phone

end Chatlink.Identity
