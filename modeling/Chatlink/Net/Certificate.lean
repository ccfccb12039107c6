import Chatlink.Net.Der
import Chatlink.Net.IpAddr

/-!
# Certificates and the checks on a server's chain

A certificate's issuer, subject and signed part are kept as the bytes they are, where the
program keeps their ranges in the encoding. Hashing, signatures, key agreement and encryption
are the operations of `Crypto`; keys and signatures of other kinds parse but cannot be used.
-/
namespace Chatlink.Net

structure P256Key where
  x : ℕ
  y : ℕ
  deriving DecidableEq, Repr

structure RsaKey where
  n : ℕ
  len : ℕ
  e : ℕ
  deriving DecidableEq, Repr

/-- The primitives the client builds on. The key of a `Gcm` is 16 bytes and a nonce 12. -/
structure Crypto where
  sha256 : List UInt8 → List UInt8
  hmac : List UInt8 → List UInt8 → List UInt8
  /-- The key, the nonce, the additional data and the message. -/
  gcmSeal : List UInt8 → List UInt8 → List UInt8 → List UInt8 → List UInt8
  gcmOpen : List UInt8 → List UInt8 → List UInt8 → List UInt8 → Option (List UInt8)
  x25519 : List UInt8 → List UInt8 → List UInt8
  x25519Public : List UInt8 → List UInt8
  fromSec1 : List UInt8 → Option P256Key
  p256Verify : P256Key → List UInt8 → List UInt8 → Bool
  verifyPkcs1 : RsaKey → List UInt8 → List UInt8 → Bool
  verifyPss : RsaKey → List UInt8 → List UInt8 → Bool

/-- A subject's public key. -/
inductive Key where
  | p256 (key : P256Key)
  | rsa (key : RsaKey)
  deriving DecidableEq, Repr

/-- An issuer's signature over a certificate. -/
inductive Signature where
  | ecdsa (raw : List UInt8)
  | rsa (sig : List UInt8)
  deriving DecidableEq, Repr

/-- Whether `sig` signs `digest`. -/
def Key.verifies (c : Crypto) (digest : List UInt8) : Key → Signature → Bool
  | .p256 k, .ecdsa s => c.p256Verify k digest s
  | .rsa k, .rsa s => c.verifyPkcs1 k digest s
  | _, _ => false

/-- A DNS name in lower case, possibly a wildcard, or the bytes of an IP address. -/
inductive Name where
  | dns (name : String)
  | ip (octets : List UInt8)
  deriving DecidableEq, Repr

/-- Why a chain is not accepted. -/
inductive Rejected where
  | malformed
  | unsupported
  | expired
  | unknownIssuer
  | wrongHost
  | badSignature
  deriving DecidableEq, Repr

/-- What the extensions say; the defaults are what a certificate without any allows. -/
structure Extensions where
  ca : Bool := false
  signsCertificates : Bool := true
  servesTls : Bool := true
  names : List Name := []
  deriving DecidableEq, Repr

structure Certificate where
  der : List UInt8
  tbs : List UInt8
  issuer : List UInt8
  subject : List UInt8
  notBefore : ℤ
  notAfter : ℤ
  key : Option Key
  signature : Option Signature
  ext : Extensions
  deriving DecidableEq, Repr

/-! ### Reading a certificate -/

def OID_EC_PUBLIC_KEY : List UInt8 := [0x2a, 0x86, 0x48, 0xce, 0x3d, 0x02, 0x01]
def OID_P256 : List UInt8 := [0x2a, 0x86, 0x48, 0xce, 0x3d, 0x03, 0x01, 0x07]
def OID_RSA : List UInt8 := [0x2a, 0x86, 0x48, 0x86, 0xf7, 0x0d, 0x01, 0x01, 0x01]
def OID_ECDSA_SHA256 : List UInt8 := [0x2a, 0x86, 0x48, 0xce, 0x3d, 0x04, 0x03, 0x02]
def OID_RSA_SHA256 : List UInt8 := [0x2a, 0x86, 0x48, 0x86, 0xf7, 0x0d, 0x01, 0x01, 0x0b]
def OID_KEY_USAGE : List UInt8 := [0x55, 0x1d, 0x0f]
def OID_ALT_NAME : List UInt8 := [0x55, 0x1d, 0x11]
def OID_BASIC_CONSTRAINTS : List UInt8 := [0x55, 0x1d, 0x13]
def OID_EXT_KEY_USAGE : List UInt8 := [0x55, 0x1d, 0x25]
def OID_SERVER_AUTH : List UInt8 := [0x2b, 0x06, 0x01, 0x05, 0x05, 0x07, 0x03, 0x01]

/-- Extensions that may be critical and are left to the issuing authority. -/
def UNDERSTOOD : List (List UInt8) :=
  [[0x55, 0x1d, 0x1e], [0x55, 0x1d, 0x20], [0x55, 0x1d, 0x21], [0x55, 0x1d, 0x24],
    [0x55, 0x1d, 0x0e], [0x55, 0x1d, 0x23]]

/-- Modulus and exponent without their leading zeros: 128 to 1024 bytes and at most 8, both
odd. -/
def RsaKey.new (n e : List UInt8) : Option RsaKey :=
  let n := n.dropWhile (· = 0)
  let e := e.dropWhile (· = 0)
  if n = [] ∨ e = [] then none
  else if ¬(128 ≤ n.length ∧ n.length ≤ 1024) ∨ 8 < e.length ∨ big n % 2 = 0 ∨ big e % 2 = 0 then
    none
  else some ⟨big n, n.length, big e⟩

def rsaKey (der : List UInt8) : Option Key := do
  let (seq, _) ← Der.expect 0x30 der
  let (n, seq) ← Der.expect 0x02 seq
  let (e, _) ← Der.expect 0x02 seq
  (RsaKey.new n e).map Key.rsa

/-- The key of a `SubjectPublicKeyInfo`; one of another kind is kept as none. -/
def publicKey (c : Crypto) (spki : List UInt8) : Option (Option Key) := do
  let (alg, spki) ← Der.expect 0x30 spki
  let (kind, alg) ← Der.expect 0x06 alg
  let (bits, _) ← Der.expect 0x03 spki
  match bits with
  | 0 :: bits =>
    if kind = OID_EC_PUBLIC_KEY ∧ (Der.expect 0x06 alg).map Prod.fst = some OID_P256 then
      (c.fromSec1 bits).map fun k => some (.p256 k)
    else if kind = OID_RSA then (rsaKey bits).map some
    else some none
  | _ => none

/-- The first and last second of a `Validity`. -/
def validity (der : List UInt8) : Option (ℤ × ℤ) := do
  let (a, d) ← Der.next der
  let notBefore ← decodeTime a.tag a.content
  let (b, _) ← Der.next d
  let notAfter ← decodeTime b.tag b.content
  pure (notBefore, notAfter)

/-- The names of a `subjectAltName`. -/
def names (value : List UInt8) : Option (List Name) := do
  let (list, _) ← Der.expect 0x30 value
  let found ← (Der.elements list).mapM fun e =>
    if e.tag = 0x82 then
      (String.fromUTF8? ⟨e.content.toArray⟩).map fun s =>
        [Name.dns (String.ofList (s.toList.map Char.toLower))]
    else if e.tag = 0x87 then some [Name.ip e.content]
    else some []
  pure found.flatten

/-- Takes in extension `oid`; the flag tells whether it is one the client reads. -/
def Extensions.apply (ext : Extensions) (oid value : List UInt8) : Option (Extensions × Bool) :=
  if oid = OID_BASIC_CONSTRAINTS then do
    let (seq, _) ← Der.expect 0x30 value
    pure ({ ext with ca := (Der.optional 0x01 seq).1 == some [0xff] }, true)
  else if oid = OID_ALT_NAME then do
    let names ← Chatlink.Net.names value
    pure ({ ext with names }, true)
  else if oid = OID_KEY_USAGE then
    let byte := (Der.expect 0x03 value).bind fun (bits, _) => bits[1]?
    pure ({ ext with signsCertificates := byte.any fun b => b &&& 0x04 != 0 }, true)
  else if oid = OID_EXT_KEY_USAGE then do
    let (seq, _) ← Der.expect 0x30 value
    let purposes := (Der.elements seq).takeWhile fun e => e.tag = 0x06
    pure ({ ext with servesTls := purposes.any fun e => e.content == OID_SERVER_AUTH }, true)
  else pure (ext, false)

/-- The extensions of the list, taken in one after the other. -/
def extensionsFrom : ℕ → Extensions → Der → Option (Except Rejected Extensions)
  | _, ext, [] => some (.ok ext)
  | 0, _, _ => none
  | fuel + 1, ext, list => do
    let (one, list) ← Der.expect 0x30 list
    let (oid, one) ← Der.expect 0x06 one
    let (flag, one) := Der.optional 0x01 one
    let (value, _) ← Der.expect 0x04 one
    let (ext, read) ← ext.apply oid value
    if ¬read ∧ flag = some [0xff] ∧ oid ∉ UNDERSTOOD then some (.error .unsupported)
    else extensionsFrom fuel ext list

def extensions (block : List UInt8) : Option (Except Rejected Extensions) := do
  let (list, _) ← Der.expect 0x30 block
  extensionsFrom list.length {} list

/-- The signed part, its content and the issuer's signature. -/
def envelope (der : List UInt8) : Option (Element × Option Signature) := do
  let (cert, outer) ← Der.expect 0x30 der
  let (tbs, cert) ← Der.next cert
  let (alg, cert) ← Der.expect 0x30 cert
  let (bits, cert) ← Der.expect 0x03 cert
  let oid := (Der.expect 0x06 alg).map Prod.fst
  let signature ←
    if oid = some OID_ECDSA_SHA256 ∧ bits.head? = some 0 then
      (rawSignature bits.tail).map fun s => some (Signature.ecdsa s)
    else if oid = some OID_RSA_SHA256 ∧ bits.head? = some 0 then some (some (.rsa bits.tail))
    else some none
  if tbs.tag = 0x30 ∧ cert = [] ∧ outer = [] then some (tbs, signature) else none

/-- The next element whole, which must be a sequence. -/
def wholeSequence (b : Der) : Option (List UInt8 × Der) := do
  let (e, rest) ← b.next
  if e.tag = 0x30 then some (e.whole, rest) else none

/-- A certificate's fields; an inner error is a critical extension the client does not
know. -/
def Certificate.read (c : Crypto) (der : List UInt8) : Option (Except Rejected Certificate) := do
  let (tbs, signature) ← envelope der
  let (_, d) := Der.optional 0xa0 tbs.content
  let (_, d) ← Der.expect 0x02 d
  let (_, d) ← Der.expect 0x30 d
  let (issuer, d) ← wholeSequence d
  let (times, d) ← Der.expect 0x30 d
  let (notBefore, notAfter) ← validity times
  let (subject, d) ← wholeSequence d
  let (spki, d) ← Der.expect 0x30 d
  let key ← publicKey c spki
  let (_, d) := Der.optional 0x81 d
  let (_, d) := Der.optional 0x82 d
  let (block, d) := Der.optional 0xa3 d
  let ext ← block.elim (some (.ok {})) extensions
  if d = [] then
    some (ext.map fun ext =>
      ⟨der, tbs.whole, issuer, subject, notBefore, notAfter, key, signature, ext⟩)
  else none

def Certificate.parse (c : Crypto) (der : List UInt8) : Except Rejected Certificate :=
  (Certificate.read c der).getD (.error .malformed)

namespace Certificate

variable (c : Crypto)

/-- Whether it may issue certificates. -/
def issues (a : Certificate) : Bool := a.ext.ca && a.ext.signsCertificates

/-- Whether the certificate's signature checks under the key of `issuer`. -/
def signedBy (a issuer : Certificate) : Bool :=
  match issuer.key, a.signature with
  | some key, some sig => key.verifies c (c.sha256 a.tbs) sig
  | _, _ => false

def issuedBy (a issuer : Certificate) : Bool :=
  a.issuer == issuer.subject && a.signedBy c issuer

/-- A wildcard stands for one label, never for a whole name such as `*.com`. -/
def wildcard (host base : List Char) : Bool :=
  base.contains '.' &&
    host.contains '.' && host.takeWhile (· ≠ '.') != [] && (host.dropWhile (· ≠ '.')).tail == base

def matchesName (host : List Char) : Name → Bool
  | .dns d =>
    d.toList == host || (['*', '.'].isPrefixOf d.toList && wildcard host (d.toList.drop 2))
  | .ip _ => false

def namesHost (a : Certificate) (host : String) : Bool :=
  let host := if host.toList.getLast? = some '.' then host.toList.dropLast else host.toList
  match IpAddr.parse (String.ofList host) with
  | some octets => a.ext.names.contains (.ip octets)
  | none => a.ext.names.any (matchesName (host.map Char.toLower))

/-- Whether it is valid at `now`. -/
def current (a : Certificate) (now : ℤ) : Bool := a.notBefore ≤ now ∧ now ≤ a.notAfter

end Certificate

/-! ### The chain -/

section

variable (c : Crypto) (anchors : List Certificate) (now : ℤ)

/-- The verdict on a chain at `cert` when it is a trust anchor or one issued it. -/
def anchored (cert : Certificate) : Option (Except Rejected Unit) :=
  if anchors.any fun a => a.der == cert.der then some (.ok ())
  else (anchors.find? fun a => a.issues && cert.issuedBy c a).map fun anchor =>
    if anchor.current now then .ok () else .error .expired

/-- The verdict on a chain at `cert`, followed by `next`; none when `next` issued it. -/
def link (cert : Certificate) (next : Option Certificate) : Option (Except Rejected Unit) :=
  if ¬cert.current now then some (.error .expired)
  else
    match anchored c anchors now cert with
    | some verdict => some verdict
    | none =>
      match next with
      | some next =>
        if next.issues && cert.issuedBy c next then none
        else if next.issues && cert.issuer == next.subject then some (.error .badSignature)
        else some (.error .unknownIssuer)
      | none => some (.error .unknownIssuer)

/-- The links of a chain in order, up to the first that has a verdict. -/
def links : List Certificate → Except Rejected Unit
  | [] => .error .unknownIssuer
  | cert :: rest =>
    match link c anchors now cert rest.head? with
    | some verdict => verdict
    | none => links rest

/-- The chain, server certificate first, names `host`, is valid at `now` and leads to one of
the anchors. -/
def verifyChain (chain : List Certificate) (host : String) : Except Rejected Unit :=
  match chain with
  | [] => .error .malformed
  | leaf :: rest =>
    if leaf.key.isNone || !leaf.ext.servesTls then .error .unsupported
    else if !leaf.namesHost host then .error .wrongHost
    else links c anchors now (leaf :: rest)

end

end Chatlink.Net
