import Chatlink.Lib.Fallible
import Chatlink.Net.Certificate

/-!
# A TLS 1.3 client session

The protocol without the socket: received bytes become plaintext and handshake replies, and
plaintext becomes records. A handler that fails leaves what it had done until then, and the
record that failed closes the session.

An `Exchange` is a session with what it has put out. Three of its fields the program does not
keep: the handshake messages accepted, the records put out one by one, and how many write keys
there have been.
-/
namespace Chatlink.Net

/-! ### Constants -/

def MAX_PLAIN : ℕ := 2 ^ 14
def MAX_RECORD : ℕ := MAX_PLAIN + 256
def HEADER : ℕ := 5
def MAX_HANDSHAKE : ℕ := 64 * 2 ^ 10
def REKEY_AFTER : ℕ := 2 ^ 24
def TAG : ℕ := 16

def CHANGE_CIPHER_SPEC : UInt8 := 20
def ALERT : UInt8 := 21
def HANDSHAKE : UInt8 := 22
def APPLICATION_DATA : UInt8 := 23

def CLIENT_HELLO : UInt8 := 1
def SERVER_HELLO : UInt8 := 2
def NEW_SESSION_TICKET : UInt8 := 4
def ENCRYPTED_EXTENSIONS : UInt8 := 8
def CERTIFICATE : UInt8 := 11
def CERTIFICATE_VERIFY : UInt8 := 15
def FINISHED : UInt8 := 20
def KEY_UPDATE : UInt8 := 24

def SERVER_NAME : ℕ := 0
def SUPPORTED_GROUPS : ℕ := 10
def SIGNATURE_ALGORITHMS : ℕ := 13
def ALPN : ℕ := 16
def SUPPORTED_VERSIONS : ℕ := 43
def KEY_SHARE : ℕ := 51

def AES_128_GCM_SHA256 : List UInt8 := [0x13, 0x01]
def X25519 : ℕ := 0x001d
def ECDSA_P256_SHA256 : List UInt8 := [0x04, 0x03]
def RSA_PSS_SHA256 : List UInt8 := [0x08, 0x04]
def SIGNATURES : List UInt8 := [0x04, 0x03, 0x08, 0x04, 0x04, 0x01]
def TLS13 : List UInt8 := [0x03, 0x04]

def ascii (s : String) : List UInt8 := s.toUTF8.toList

/-- The ALPN extension's data, naming only `http/1.1`. -/
def ALPN_HTTP11 : List UInt8 := [0x00, 0x09, 0x08] ++ ascii "http/1.1"

/-- The random of a `ServerHello` that asks for another `ClientHello`. -/
def RETRY_RANDOM : List UInt8 :=
  [0xcf, 0x21, 0xad, 0x74, 0xe5, 0x9a, 0x61, 0x11, 0xbe, 0x1d, 0x8c, 0x02, 0x1e, 0x65, 0xb8, 0x91,
    0xc2, 0xa2, 0x11, 0x16, 0x7a, 0xbb, 0x8c, 0x5e, 0x07, 0x9e, 0x09, 0xe2, 0xc8, 0xa8, 0x33, 0x9c]

def SERVER_VERIFY_CONTEXT : List UInt8 := ascii "TLS 1.3, server CertificateVerify" ++ [0]

/-- The alerts the client sends. -/
inductive Alert where
  | closeNotify
  | unexpectedMessage
  | badRecordMac
  | recordOverflow
  | handshakeFailure
  | badCertificate
  | unsupportedCertificate
  | certificateExpired
  | illegalParameter
  | unknownCa
  | decodeError
  | decryptError
  | protocolVersion
  | missingExtension
  | unsupportedExtension
  deriving DecidableEq, Repr

def Alert.code : Alert → UInt8
  | .closeNotify => 0
  | .unexpectedMessage => 10
  | .badRecordMac => 20
  | .recordOverflow => 22
  | .handshakeFailure => 40
  | .badCertificate => 42
  | .unsupportedCertificate => 43
  | .certificateExpired => 45
  | .illegalParameter => 47
  | .unknownCa => 48
  | .decodeError => 50
  | .decryptError => 51
  | .protocolVersion => 70
  | .missingExtension => 109
  | .unsupportedExtension => 110

/-- Why a session ended: an alert of the client, or one of the server. -/
inductive TlsError where
  | locally (alert : Alert)
  | peer (code : UInt8)
  deriving DecidableEq, Repr

def rejected : Rejected → TlsError
  | .malformed => .locally .badCertificate
  | .wrongHost => .locally .badCertificate
  | .badSignature => .locally .badCertificate
  | .unsupported => .locally .unsupportedCertificate
  | .expired => .locally .certificateExpired
  | .unknownIssuer => .locally .unknownCa

/-! ### Reading handshake messages -/

/-- A reader of length-prefixed structures: what is left to read. -/
abbrev Reading := StateT (List UInt8) (Except TlsError)

namespace Reading

def fail {α : Type} (a : Alert) : Reading α := throw (.locally a)

/-- A check that stops the reading where it fails. -/
def require (q : Prop) [Decidable q] (a : Alert) : Reading Unit := if q then pure () else fail a

def bytes (n : ℕ) : Reading (List UInt8) := fun rest =>
  if n ≤ rest.length then .ok (rest.take n, rest.drop n) else .error (.locally .decodeError)

def int (n : ℕ) : Reading ℕ := do
  let bs ← bytes n
  pure (big bs)

def vec (width : ℕ) : Reading (List UInt8) := do
  let n ← int width
  bytes n

def finish : Reading Unit := fun rest =>
  if rest = [] then .ok ((), []) else .error (.locally .decodeError)

/-- One extension after the other; a type below 64 that was seen before is refused. -/
def extensionsFrom {σ : Type} (each : σ → ℕ → List UInt8 → Except TlsError σ) :
    ℕ → ℕ → σ → List UInt8 → Except TlsError σ
  | _, _, acc, [] => .ok acc
  | 0, _, acc, _ => .ok acc
  | fuel + 1, seen, acc, rest => do
    let (kind, rest) ← int 2 rest
    let (data, rest) ← vec 2 rest
    if kind < 64 && seen.testBit kind then .error (.locally .illegalParameter)
    else
      let acc ← each acc kind data
      extensionsFrom each fuel (if kind < 64 then seen ||| 1 <<< kind else seen) acc rest

/-- Every extension of a block in turn, from the state `acc`. -/
def extensions {σ : Type} (each : σ → ℕ → List UInt8 → Except TlsError σ) (acc : σ) : Reading σ := do
  let block ← vec 2
  liftM (extensionsFrom each block.length 0 acc block)

end Reading

open Reading in
/-- The fixed fields of a `ServerHello`. -/
def helloFields (sessionId : List UInt8) : Reading Unit := do
  let version ← bytes 2
  require (version = [3, 3]) .protocolVersion
  let random ← bytes 32
  require (random ≠ RETRY_RANDOM) .handshakeFailure
  let id ← vec 1
  let suite ← bytes 2
  let compression ← bytes 1
  require (id = sessionId ∧ suite = AES_128_GCM_SHA256 ∧ compression = [0]) .illegalParameter

/-- What the extensions of a `ServerHello` say: the version is TLS 1.3, and the key share. -/
structure Offer where
  tls13 : Bool := false
  share : Option (List UInt8) := none
  deriving DecidableEq, Repr

open Reading in
def helloExtension (o : Offer) (kind : ℕ) (data : List UInt8) : Except TlsError Offer :=
  (·.1) <$> (do
    if kind = SUPPORTED_VERSIONS then
      let version ← bytes 2
      finish
      pure { o with tls13 := version = TLS13 }
    else if kind = KEY_SHARE then
      let group ← int 2
      if group = X25519 then
        let share ← vec 2
        if share.length = 32 then
          finish
          pure { o with share := some share }
        else fail .illegalParameter
      else fail .illegalParameter
    else fail .unsupportedExtension : Reading Offer) data

open Reading in
/-- The server's share, from the extensions that end a `ServerHello`. -/
def serverShare : Reading (List UInt8) := do
  let o ← Reading.extensions helloExtension {}
  finish
  match o.tls13, o.share with
  | false, _ => fail .protocolVersion
  | true, none => fail .missingExtension
  | true, some share => pure share

/-- The share of a whole `ServerHello`. -/
def readHello (sessionId body : List UInt8) : Except TlsError (List UInt8) :=
  (·.1) <$> (do helloFields sessionId; serverShare : Reading (List UInt8)) body

/-- One extension of an `EncryptedExtensions`. -/
def encryptedExtension (_ : Unit) (kind : ℕ) (data : List UInt8) : Except TlsError Unit :=
  if kind = ALPN ∧ data ≠ ALPN_HTTP11 then .error (.locally .illegalParameter) else .ok ()

open Reading in
def readEncryptedExtensions (body : List UInt8) : Except TlsError Unit :=
  (·.1) <$> (do Reading.extensions encryptedExtension (); finish : Reading Unit) body

open Reading in
/-- The certificates of a list, each with extensions that are not read. -/
def chainFrom (c : Crypto) : ℕ → List UInt8 → Except TlsError (List Certificate)
  | _, [] => .ok []
  | 0, _ => .ok []
  | fuel + 1, rest => do
    let (der, rest) ← vec 3 rest
    let (_, rest) ← vec 2 rest
    let cert ← (Certificate.parse c der).mapError rejected
    let more ← chainFrom c fuel rest
    pure (cert :: more)

open Reading in
def readChain (c : Crypto) (body : List UInt8) : Except TlsError (List Certificate) := do
  let (context, rest) ← vec 1 body
  if context ≠ [] then .error (.locally .illegalParameter)
  else
    let (list, rest) ← vec 3 rest
    let _ ← finish rest
    chainFrom c list.length list

open Reading in
/-- The scheme and the signature of a `CertificateVerify`. -/
def readVerify (body : List UInt8) : Except TlsError (List UInt8 × List UInt8) :=
  (·.1) <$> (do
    let scheme ← bytes 2
    let sig ← vec 2
    finish
    pure (scheme, sig) : Reading (List UInt8 × List UInt8)) body

/-! ### Keys -/

section Keys

variable (c : Crypto)

/-- The blocks of an expansion from the `i`th on, each made from the one before. -/
def hkdfBlocks (prk info : List UInt8) : ℕ → ℕ → List UInt8 → List UInt8
  | 0, _, _ => []
  | left + 1, i, t =>
    let t := c.hmac prk (t ++ info ++ [UInt8.ofNat (i + 1)])
    t ++ hkdfBlocks prk info left (i + 1) t

def hkdfExpand (prk info : List UInt8) (len : ℕ) : List UInt8 :=
  (hkdfBlocks c prk info ((len + 31) / 32) 0 []).take len

def expandLabel (secret : List UInt8) (label : String) (context : List UInt8) (len : ℕ) :
    List UInt8 :=
  hkdfExpand c secret (bigBytes 2 len ++ [UInt8.ofNat (6 + (ascii label).length)] ++
    ascii "tls13 " ++ ascii label ++ [UInt8.ofNat context.length] ++ context) len

def derive (secret : List UInt8) (label : String) (transcript : List UInt8) : List UInt8 :=
  expandLabel c secret label transcript 32

/-- The code of a `Finished`. -/
def finishedMac (base transcript : List UInt8) : List UInt8 :=
  c.hmac (expandLabel c base "finished" [] 32) transcript

/-- The keys of one direction and how many records they have sealed or opened. -/
structure Direction where
  key : List UInt8
  secret : List UInt8
  seq : ℕ
  iv : List UInt8
  deriving DecidableEq, Repr

def Direction.new (secret : List UInt8) : Direction where
  key := expandLabel c secret "key" [] 16
  secret := secret
  seq := 0
  iv := expandLabel c secret "iv" [] 12

/-- The nonce of record `seq`. -/
def Direction.nonceAt (d : Direction) (seq : ℕ) : List UInt8 :=
  d.iv.take 4 ++ List.zipWith (· ^^^ ·) (d.iv.drop 4) (bigBytes 8 seq)

/-- The next nonce; the counter is a `u64` and must not overflow. -/
def Direction.nonce (d : Direction) : Option (List UInt8 × Direction) :=
  if d.seq + 1 < 2 ^ 64 then some (d.nonceAt d.seq, { d with seq := d.seq + 1 }) else none

/-- The next generation of keys. -/
def Direction.update (d : Direction) : Direction :=
  Direction.new c (expandLabel c d.secret "traffic upd" [] 32)

/-- The traffic secrets of the client and the server, and the secret behind the next ones. -/
structure Secrets where
  client : List UInt8
  server : List UInt8
  pending : List UInt8
  deriving DecidableEq, Repr

def handshakeSecrets (shared hash : List UInt8) : Secrets :=
  let empty := c.sha256 []
  let early := c.hmac (List.replicate 32 0) (List.replicate 32 0)
  let secret := c.hmac (derive c early "derived" empty) shared
  ⟨derive c secret "c hs traffic" hash, derive c secret "s hs traffic" hash,
    derive c secret "derived" empty⟩

/-- The application secrets of the client and the server. -/
def applicationSecrets (pending hash : List UInt8) : List UInt8 × List UInt8 :=
  let master := c.hmac pending (List.replicate 32 0)
  (derive c master "c ap traffic" hash, derive c master "s ap traffic" hash)

/-- The digest a `CertificateVerify` signs. -/
def verifyDigest (transcript : List UInt8) : List UInt8 :=
  c.sha256 (List.replicate 64 0x20 ++ SERVER_VERIFY_CONTEXT ++ transcript)

/-- Whether a `CertificateVerify` of `scheme` and `sig` checks under the server's key. -/
def checkVerify (peer : Option Key) (digest scheme sig : List UInt8) : Except TlsError Bool :=
  match peer with
  | some (.p256 key) =>
    if scheme = ECDSA_P256_SHA256 then
      match rawSignature sig with
      | some raw => .ok (c.p256Verify key digest raw)
      | none => .error (.locally .decodeError)
    else .error (.locally .illegalParameter)
  | some (.rsa key) =>
    if scheme = RSA_PSS_SHA256 then .ok (c.verifyPss key digest sig)
    else .error (.locally .illegalParameter)
  | none => .error (.locally .illegalParameter)

end Keys

/-! ### The session -/

inductive State where
  | serverHello
  | encryptedExtensions
  | certificate
  | certificateVerify
  | finished
  | connected
  | closed
  deriving DecidableEq, Repr

/-- What the client trusts, and its clock. -/
structure Config where
  crypto : Crypto
  anchors : List Certificate
  now : ℤ

/-- The transcript is the bytes hashed so far. -/
structure Session where
  host : String
  helloId : List UInt8
  ephemeral : List UInt8
  peer : Option Key := none
  state : State := .serverHello
  transcript : List UInt8
  read : Option Direction := none
  write : Option Direction := none
  /-- Handshake bytes received but not yet a whole message. -/
  handshake : List UInt8 := []
  clientSecret : List UInt8 := List.replicate 32 0
  serverSecret : List UInt8 := List.replicate 32 0
  pending : List UInt8 := List.replicate 32 0
  changeCipherSpec : Bool := false
  deriving DecidableEq, Repr

/-- A handshake message that was accepted, and when. -/
structure Accepted where
  now : ℤ
  whole : List UInt8
  deriving DecidableEq, Repr

/-- A record that was sealed: its content and kind, and what went on the wire. -/
structure Sealed where
  generation : ℕ
  nonce : List UInt8
  content : List UInt8
  kind : UInt8
  header : List UInt8
  body : List UInt8
  deriving DecidableEq, Repr

inductive Frame where
  | plain (bytes : List UInt8)
  | «sealed» (record : Sealed)
  deriving DecidableEq, Repr

def Frame.bytes : Frame → List UInt8
  | .plain bytes => bytes
  | .sealed r => r.header ++ r.body

structure Exchange where
  session : Session
  plain : List UInt8 := []
  out : List UInt8 := []
  accepted : List Accepted := []
  frames : List Frame := []
  generation : ℕ := 0
  deriving DecidableEq, Repr

/-- An error ends the session; a panic ends the program. -/
inductive Fault where
  | stop (e : TlsError)
  | panic
  deriving DecidableEq, Repr

abbrev Tls := ExceptT Fault (StateM Exchange)

namespace Tls

def fail {α : Type} (a : Alert) : Tls α := throw (.stop (.locally a))

def lift {α : Type} : Except TlsError α → Tls α
  | .ok a => pure a
  | .error e => throw (.stop e)

def session : Tls Session := return (← get).session

def modifySession (f : Session → Session) : Tls Unit :=
  modify fun e => { e with session := f e.session }

/-- A frame goes out. -/
def put (frame : Frame) : Tls Unit :=
  modify fun e => { e with out := e.out ++ frame.bytes, frames := e.frames ++ [frame] }

/-- New write keys. -/
def install (d : Direction) : Tls Unit :=
  modify fun e =>
    { e with session := { e.session with write := some d }, generation := e.generation + 1 }

end Tls

/-- What `body` writes, after its length in `width` bytes. -/
def prefixed (width : ℕ) (body : List UInt8) : List UInt8 := bigBytes width body.length ++ body

def extension (kind : ℕ) (body : List UInt8) : List UInt8 := bigBytes 2 kind ++ prefixed 2 body

def plainRecord (kind legacy : UInt8) (body : List UInt8) : List UInt8 :=
  [kind, 3, legacy] ++ prefixed 2 body

/-- The extensions of the `ClientHello`. -/
def helloExtensions (host : String) (share : List UInt8) : List UInt8 :=
  (if (IpAddr.parse host).isNone then
    extension SERVER_NAME (prefixed 2 ([0] ++ prefixed 2 (ascii host))) else []) ++
  extension SUPPORTED_GROUPS (prefixed 2 (bigBytes 2 X25519)) ++
  extension SIGNATURE_ALGORITHMS (prefixed 2 SIGNATURES) ++
  extension SUPPORTED_VERSIONS (prefixed 1 TLS13) ++
  extension KEY_SHARE (prefixed 2 (bigBytes 2 X25519 ++ prefixed 2 share)) ++
  extension ALPN ALPN_HTTP11

def clientHello (c : Crypto) (host : String) (random sessionId ephemeral : List UInt8) : List UInt8 :=
  [CLIENT_HELLO] ++ prefixed 3 ([3, 3] ++ random ++ prefixed 1 sessionId ++
    prefixed 2 AES_128_GCM_SHA256 ++ [1, 0] ++
    prefixed 2 (helloExtensions host (c.x25519Public ephemeral)))

/-- A session with the server `host`, its `ClientHello` put out. -/
def client (c : Crypto) (host : String) (random sessionId ephemeral : List UInt8) : Exchange :=
  let hello := clientHello c host random sessionId ephemeral
  let record := plainRecord HANDSHAKE 1 hello
  { session := { host, helloId := sessionId, ephemeral, transcript := hello }
    out := record
    frames := [.plain record] }

def Session.established (s : Session) : Bool := s.state = .connected

/-! ### Sealing -/

section

variable (c : Crypto)

/-- One record of at most `MAX_PLAIN` bytes, sealed under the write key. -/
def sealPiece (kind : UInt8) (piece : List UInt8) : Tls Unit := do
  let e ← get
  match e.session.write with
  | none => throw .panic
  | some d =>
    match d.nonce with
    | none => throw .panic
    | some (nonce, d) =>
      let len := piece.length + 1 + TAG
      let header := [APPLICATION_DATA, 3, 3, UInt8.ofNat (len / 256), UInt8.ofNat len]
      let body := c.gcmSeal d.key nonce header (piece ++ [kind])
      Tls.modifySession fun s => { s with write := some d }
      Tls.put (.sealed ⟨e.generation, nonce, piece, kind, header, body⟩)

def keyUpdateMessage : List UInt8 := [KEY_UPDATE, 0, 0, 1, 0]

/-- A `KeyUpdate` under the old key, then the next one. -/
def updateWrite : Tls Unit := do
  sealPiece c HANDSHAKE keyUpdateMessage
  match (← get).session.write with
  | none => throw .panic
  | some d => Tls.install (d.update c)

/-- The pieces one after the other; application data first moves to the next key where one has
sealed `REKEY_AFTER` records. -/
def sealPieces (kind : UInt8) : List (List UInt8) → Tls Unit
  | [] => pure ()
  | piece :: rest => do
    let s ← Tls.session
    if kind = APPLICATION_DATA ∧ s.write.any (fun d => REKEY_AFTER ≤ d.seq) then updateWrite c
    sealPiece c kind piece
    sealPieces kind rest

def pieces (data : List UInt8) : List (List UInt8) :=
  if data = [] then [[]] else data.toChunks MAX_PLAIN

/-- Named `seal` in the program. -/
def sealData (kind : UInt8) (data : List UInt8) : Tls Unit := sealPieces c kind (pieces data)

/-- Appends the records that carry `data`. -/
def send (data : List UInt8) : Tls Unit := sealData c APPLICATION_DATA data

/-- An alert record; after it the session is closed. -/
def alert (a : Alert) : Tls Unit := do
  let body := [if a = .closeNotify then 1 else 2, a.code]
  let s ← Tls.session
  if s.write.isSome then sealData c ALERT body else Tls.put (.plain (plainRecord ALERT 3 body))
  Tls.modifySession fun s => { s with state := .closed }

/-- The alert of an error of the client, and the end of the session. -/
def abort {α : Type} (e : TlsError) : Tls α := do
  match e with
  | .locally a => alert c a
  | .peer _ => pure ()
  Tls.modifySession fun s => { s with state := .closed }
  throw (.stop e)

end

/-! ### Handshake messages -/

section

variable (cfg : Config)

def serverHello (body whole : List UInt8) : Tls Unit := do
  let s ← Tls.session
  let peer ← Tls.lift (readHello s.helloId body)
  let shared := cfg.crypto.x25519 s.ephemeral peer
  Tls.modifySession fun s => { s with ephemeral := List.replicate 32 0 }
  if shared = List.replicate 32 0 then Tls.fail .illegalParameter
  else
    let transcript := s.transcript ++ whole
    let k := handshakeSecrets cfg.crypto shared (cfg.crypto.sha256 transcript)
    Tls.modifySession fun s =>
      { s with transcript, clientSecret := k.client, serverSecret := k.server,
               pending := k.pending, read := some (Direction.new cfg.crypto k.server),
               state := .encryptedExtensions }
    Tls.install (Direction.new cfg.crypto k.client)

def encryptedExtensions (body whole : List UInt8) : Tls Unit := do
  Tls.lift (readEncryptedExtensions body)
  Tls.modifySession fun s => { s with transcript := s.transcript ++ whole, state := .certificate }

def certificate (body whole : List UInt8) : Tls Unit := do
  let s ← Tls.session
  let chain ← Tls.lift (readChain cfg.crypto body)
  Tls.lift ((verifyChain cfg.crypto cfg.anchors cfg.now chain s.host).mapError rejected)
  Tls.modifySession fun s =>
    { s with peer := chain.head?.bind Certificate.key, transcript := s.transcript ++ whole,
             state := .certificateVerify }

def certificateVerify (body whole : List UInt8) : Tls Unit := do
  let s ← Tls.session
  let (scheme, sig) ← Tls.lift (readVerify body)
  let digest := verifyDigest cfg.crypto (cfg.crypto.sha256 s.transcript)
  let good ← Tls.lift (checkVerify cfg.crypto s.peer digest scheme sig)
  if good then
    Tls.modifySession fun s => { s with transcript := s.transcript ++ whole, state := .finished }
  else Tls.fail .decryptError

/-- The server's `Finished`: checked, the client's sent, the application keys installed. -/
def finished (body whole : List UInt8) : Tls Unit := do
  let s ← Tls.session
  if body ≠ finishedMac cfg.crypto s.serverSecret (cfg.crypto.sha256 s.transcript) then
    Tls.fail .decryptError
  else
    let transcript := s.transcript ++ whole
    let hash := cfg.crypto.sha256 transcript
    let (client, server) := applicationSecrets cfg.crypto s.pending hash
    Tls.modifySession fun s => { s with transcript, pending := List.replicate 32 0 }
    Tls.put (.plain (plainRecord CHANGE_CIPHER_SPEC 3 [1]))
    sealData cfg.crypto HANDSHAKE
      ([FINISHED, 0, 0, 32] ++ finishedMac cfg.crypto s.clientSecret hash)
    Tls.install (Direction.new cfg.crypto client)
    Tls.modifySession fun s =>
      { s with read := some (Direction.new cfg.crypto server),
               clientSecret := List.replicate 32 0, serverSecret := List.replicate 32 0,
               state := .connected }

def keyUpdate (body : List UInt8) : Tls Unit := do
  if body = [0] ∨ body = [1] then
    match (← Tls.session).read with
    | none => throw .panic
    | some d => Tls.modifySession fun s => { s with read := some (d.update cfg.crypto) }
    if body = [1] then updateWrite cfg.crypto
  else Tls.fail .illegalParameter

/-- A message that changes keys. -/
def rekeys (state : State) (kind : UInt8) : Bool :=
  (state = .finished && kind = FINISHED) || (state = .serverHello && kind = SERVER_HELLO) ||
    (state = .connected && kind = KEY_UPDATE)

/-- The handler of a message of `kind` in `state`. -/
def handle (state : State) (kind : UInt8) (body whole : List UInt8) : Tls Unit :=
  match state with
  | .serverHello => if kind = SERVER_HELLO then serverHello cfg body whole else Tls.fail .unexpectedMessage
  | .encryptedExtensions =>
    if kind = ENCRYPTED_EXTENSIONS then encryptedExtensions body whole
    else Tls.fail .unexpectedMessage
  | .certificate =>
    if kind = CERTIFICATE then certificate cfg body whole else Tls.fail .unexpectedMessage
  | .certificateVerify =>
    if kind = CERTIFICATE_VERIFY then certificateVerify cfg body whole
    else Tls.fail .unexpectedMessage
  | .finished => if kind = FINISHED then finished cfg body whole else Tls.fail .unexpectedMessage
  | .connected =>
    if kind = NEW_SESSION_TICKET then pure ()
    else if kind = KEY_UPDATE then keyUpdate cfg body
    else Tls.fail .unexpectedMessage
  | .closed => Tls.fail .unexpectedMessage

/-- One whole handshake message; `last` when nothing follows it in the buffer. -/
def message (whole : List UInt8) (last : Bool) : Tls Unit := do
  let kind := whole.headD 0
  let s ← Tls.session
  if rekeys s.state kind && !last then Tls.fail .unexpectedMessage
  else
    handle cfg s.state kind (whole.drop 4) whole
    modify fun e => { e with accepted := e.accepted ++ [⟨cfg.now, whole⟩] }

/-- The length a handshake message gives for its body. -/
def bodyLength (rest : List UInt8) : ℕ := big ((rest.drop 1).take 3)

/-- Every whole message of the buffer; what is left of it. -/
def messages : ℕ → List UInt8 → Tls (List UInt8)
  | 0, rest => pure rest
  | fuel + 1, rest =>
    if rest.length < 4 then pure rest
    else if MAX_HANDSHAKE < bodyLength rest then Tls.fail .unexpectedMessage
    else if rest.length < 4 + bodyLength rest then pure rest
    else do
      message cfg (rest.take (4 + bodyLength rest)) (rest.length = 4 + bodyLength rest)
      messages fuel (rest.drop (4 + bodyLength rest))

def handshakes : Tls Unit := do
  let buffer := (← Tls.session).handshake
  Tls.modifySession fun s => { s with handshake := [] }
  let rest ← messages cfg buffer.length buffer
  if MAX_HANDSHAKE < rest.length then Tls.fail .unexpectedMessage
  else Tls.modifySession fun s => { s with handshake := rest }

/-! ### Records -/

def peerAlert : List UInt8 → Tls Unit
  | [_, code] =>
    if code = 0 then Tls.modifySession fun s => { s with state := .closed }
    else if code = 90 then pure ()
    else throw (.stop (.peer code))
  | _ => Tls.fail .decodeError

/-- Handshake bytes, never none. -/
def handshakeRecord (content : List UInt8) : Tls Unit := do
  Tls.modifySession fun s => { s with handshake := s.handshake ++ content }
  handshakes cfg

/-- The content and the kind of an opened record: all but the zeros after its last other
byte. -/
def unpad (opened : List UInt8) : Option (List UInt8 × UInt8) :=
  match (opened.reverse.dropWhile (· = 0)) with
  | [] => none
  | kind :: content => if content.length ≤ MAX_PLAIN then some (content.reverse, kind) else none

/-- An encrypted record. -/
def protectedRecord (header body : List UInt8) : Tls Unit := do
  match (← Tls.session).read with
  | none => throw .panic
  | some d =>
    match d.nonce with
    | none => throw .panic
    | some (nonce, d) =>
      Tls.modifySession fun s => { s with read := some d }
      if header.headD 0 ≠ APPLICATION_DATA then Tls.fail .unexpectedMessage
      else
        match cfg.crypto.gcmOpen d.key nonce header body with
        | none => Tls.fail .badRecordMac
        | some opened =>
          match unpad opened with
          | none => Tls.fail .unexpectedMessage
          | some (content, inner) =>
            let s ← Tls.session
            if inner = APPLICATION_DATA ∧ s.state = .connected then
              modify fun e => { e with plain := e.plain ++ content }
            else if inner = HANDSHAKE ∧ content ≠ [] then handshakeRecord cfg content
            else if inner = ALERT then peerAlert content
            else Tls.fail .unexpectedMessage

def record (header body : List UInt8) : Tls Unit := do
  let s ← Tls.session
  if header.headD 0 = CHANGE_CIPHER_SPEC then
    Tls.modifySession fun s => { s with changeCipherSpec := true }
    if s.state ≠ .connected ∧ body = [1] ∧ s.changeCipherSpec = false then pure ()
    else Tls.fail .unexpectedMessage
  else if s.read.isSome then protectedRecord cfg header body
  else if header.headD 0 = HANDSHAKE ∧ body ≠ [] then handshakeRecord cfg body
  else if header.headD 0 = ALERT then peerAlert body
  else Tls.fail .unexpectedMessage

/-- A record whose error closes the session. -/
def guardedRecord (header body : List UInt8) : Tls Unit :=
  tryCatch (record cfg header body) fun
    | .stop e => abort cfg.crypto e
    | .panic => throw .panic

/-- The length in a record's header. -/
def recordLength (wire : List UInt8) : ℕ := big ((wire.drop 3).take 2)

/-- The whole records at the start of `wire`, `used` bytes after the start of the input. -/
def receiveFrom : ℕ → List UInt8 → ℕ → Tls ℕ
  | 0, _, used => pure used
  | fuel + 1, wire, used => do
    let s ← Tls.session
    if s.state = .closed ∨ wire.length < HEADER then pure used
    else
      let len := recordLength wire
      let limit := if s.read.isSome then MAX_RECORD else MAX_PLAIN
      if wire.getD 1 0 ≠ 3 then abort cfg.crypto (.locally .decodeError)
      else if limit < len then abort cfg.crypto (.locally .recordOverflow)
      else if wire.length < HEADER + len then pure used
      else
        guardedRecord cfg (wire.take HEADER) ((wire.drop HEADER).take len)
        receiveFrom fuel (wire.drop (HEADER + len)) (used + HEADER + len)

/-- Consumes the whole records at the start of `wire`; how many bytes they took. -/
def receive (wire : List UInt8) : Tls ℕ := receiveFrom cfg wire.length wire 0

end

end Chatlink.Net
