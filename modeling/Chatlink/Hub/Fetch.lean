import Chatlink.Lib.Ascii
import Chatlink.Lib.Split

/-!
# URLs, connections and redirects

A fetch asks for a URL and follows redirects, each request on a connection that reaches the host of
its URL. What the code compares to decide on the `Authorization` header is the host alone.
-/
namespace Chatlink.Hub

/-- Most redirects followed. -/
def MAX_REDIRECTS : ℕ := 8

structure Url where
  https : Bool
  host : String
  port : ℕ
  path : String
  deriving DecidableEq, Repr

/-! ## Parsing -/

def Url.parse (url : List Char) : Option Url := do
  let (scheme, rest) ← Split.cut "://".toList url
  let https ← if scheme = "https".toList then some true else if scheme = "http".toList then some false else none
  let authority := rest.takeWhile fun c => c ≠ '/' ∧ c ≠ '?'
  let path := if authority.length = rest.length then ['/'] else rest.drop authority.length
  -- The last colon is the first from the back.
  let (host, port) ← match Split.cut [':'] authority.reverse with
    | some (port, host) => (Digits.parse 10 16 port.reverse).map fun p => (host.reverse, p)
    | none => some (authority, if https then 443 else 80)
  let path := if path.head? = some '?' then '/' :: path else path
  if host.isEmpty then none else some ⟨https, String.ofList host, port, String.ofList path⟩

/-- A location resolved against a URL: absolute, or a path on the same host. -/
def Url.join (url : Url) (location : List Char) : Option Url :=
  if location.head? = some '/' then some { url with path := String.ofList location } else Url.parse location

/-- Scheme, host and port. -/
def Url.SameOrigin (u v : Url) : Prop := u.https = v.https ∧ u.host = v.host ∧ u.port = v.port

instance (u v : Url) : Decidable (u.SameOrigin v) := inferInstanceAs (Decidable (_ ∧ _ ∧ _))

/-! ## Connections -/

structure Connection where
  url : Url
  closing : Bool
  deriving DecidableEq, Repr

def Connection.serves (c : Connection) (url : Url) : Bool :=
  !c.closing && decide (c.url.SameOrigin url)

/-- The connection that a request for `url` goes out on. -/
def connect (conn : Option Connection) (url : Url) : Connection :=
  match conn with
  | some c => if c.serves url then c else ⟨url, false⟩
  | none => ⟨url, false⟩

/-- A request that was written, and where to. -/
structure Request where
  dest : Url
  path : String
  headers : List (String × String)
  deriving DecidableEq, Repr

/-! ## Fetches -/

def isAuthorization (k : String) : Bool := k.toList.map Char.toLower = "authorization".toList

def isRedirect (status : ℕ) : Bool := status ∈ [301, 302, 303, 307, 308]

/-- A fetch under way: the host it started at, the URL it has come to, and the redirects so far. -/
structure Fetch where
  origin : String
  url : Url
  headers : List (String × String)
  hops : ℕ
  deriving DecidableEq, Repr

def Fetch.begin (url : Url) (headers : List (String × String)) : Fetch := ⟨url.host, url, headers, 0⟩

/-- The headers of the next request. -/
def Fetch.sent (f : Fetch) : List (String × String) :=
  f.headers.filter fun h => decide (f.url.host = f.origin) || !isAuthorization h.1

/-- The next request, on connection `c`. -/
def Fetch.request (f : Fetch) (c : Connection) : Request := ⟨c.url, f.url.path, f.sent⟩

/-- The fetch behind a redirect, unless its `Location` is of no use or it is one too many. -/
def Fetch.redirect (f : Fetch) (location : Option String) : Option Fetch := do
  let l ← location
  let url ← f.url.join l.toList
  if f.hops < MAX_REDIRECTS then some { f with url, hops := f.hops + 1 } else none

end Chatlink.Hub
