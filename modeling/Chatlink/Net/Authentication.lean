import Chatlink.Lib.Transition
import Chatlink.Net.Chain
import Chatlink.Net.Handshake

/-!
# The server a session is established with

The messages a session accepted, in order, are what its state stands for: a `ServerHello`, then
`EncryptedExtensions`, a chain that leads to an anchor, a signature of the transcript under the
leaf's key, and a `Finished` with the right code. Plaintext comes only from records that open
under the application keys these messages give.
-/
namespace Chatlink.Net

open Std.Do Fallible

set_option mvcgen.warning false

/-- What a session starts from. -/
structure Start where
  crypto : Crypto
  anchors : List Certificate
  host : String
  random : List UInt8
  id : List UInt8
  ephemeral : List UInt8

namespace Start

variable (p : Start)

def hello : List UInt8 := clientHello p.crypto p.host p.random p.id p.ephemeral

def exchange : Exchange := client p.crypto p.host p.random p.id p.ephemeral

def config (now : ℤ) : Config := ⟨p.crypto, p.anchors, now⟩

/-- The bytes of the handshake with the server's messages `ms`. -/
def transcript (ms : List Accepted) : List UInt8 := p.hello ++ (ms.map Accepted.whole).flatten

/-- The key exchange with the share of a `ServerHello`. -/
def shared (sh : List UInt8) : List UInt8 :=
  p.crypto.x25519 p.ephemeral ((readHello p.id (sh.drop 4)).toOption.getD [])

/-- The handshake secrets that the `ServerHello` gives. -/
def secrets (sh : List UInt8) : Secrets :=
  handshakeSecrets p.crypto (p.shared sh) (p.crypto.sha256 (p.hello ++ sh))

/-- The server's application keys, after `g` updates. -/
def applicationKeys (ms : List Accepted) (g : ℕ) : Direction :=
  (Direction.update p.crypto)^[g] (Direction.new p.crypto
    (applicationSecrets p.crypto (p.secrets (ms.head?.elim [] Accepted.whole)).pending
      (p.crypto.sha256 (p.transcript (ms.take 5)))).2)

/-- What was checked of a message that came after those of `ms`. -/
def Checked (ms : List Accepted) (m : Accepted) : Prop :=
  match ms with
  | [] => ∃ body share, m.whole = handshakeMessage SERVER_HELLO body ∧
      IsServerHello p.id body share ∧ p.shared m.whole = p.crypto.x25519 p.ephemeral share ∧
      p.shared m.whole ≠ List.replicate 32 0
  | [_] => ∃ body, m.whole = handshakeMessage ENCRYPTED_EXTENSIONS body ∧ IsEncryptedExtensions body
  | [_, _] => ∃ body chain, m.whole = handshakeMessage CERTIFICATE body ∧
      readChain p.crypto body = .ok chain ∧
      verifyChain p.crypto p.anchors m.now chain p.host = .ok ()
  -- the signature is over the messages up to the certificate, under its leaf's key
  | [_, _, ce] => ∃ chain leaf key body, readChain p.crypto (ce.whole.drop 4) = .ok chain ∧
      chain.head? = some leaf ∧ leaf.key = some key ∧
      m.whole = handshakeMessage CERTIFICATE_VERIFY body ∧
      Verifies p.crypto key (verifyDigest p.crypto (p.crypto.sha256 (p.transcript ms))) body
  | [sh, _, _, _] => m.whole = handshakeMessage FINISHED
      (finishedMac p.crypto (p.secrets sh.whole).server (p.crypto.sha256 (p.transcript ms)))
  | _ => True

/-- Every message was checked after those before it. -/
def Genuine (ms : List Accepted) : Prop := ∀ i m, ms[i]? = some m → p.Checked (ms.take i) m

/-- The keys of the handshake are in place. -/
def Keyed (e : Exchange) : Prop :=
  ∃ sh rest, e.accepted = sh :: rest ∧ e.session.serverSecret = (p.secrets sh.whole).server ∧
    e.session.pending = (p.secrets sh.whole).pending ∧ e.session.read.isSome

/-- The key of the leaf of the chain that was accepted. -/
def Leaf (e : Exchange) : Prop :=
  ∃ m chain leaf key, e.accepted[2]? = some m ∧ readChain p.crypto (m.whole.drop 4) = .ok chain ∧
    chain.head? = some leaf ∧ leaf.key = some key ∧ e.session.peer = some key

/-- What the state of the session says about the messages accepted. -/
def Stage (e : Exchange) : Prop :=
  match e.session.state with
  | .serverHello =>
    e.accepted = [] ∧ e.session.ephemeral = p.ephemeral ∧ e.session.read = none
  | .encryptedExtensions => e.accepted.length = 1 ∧ p.Keyed e
  | .certificate => e.accepted.length = 2 ∧ p.Keyed e
  | .certificateVerify => e.accepted.length = 3 ∧ p.Keyed e ∧ p.Leaf e
  | .finished => e.accepted.length = 4 ∧ p.Keyed e
  | .connected => 5 ≤ e.accepted.length ∧ ∃ g seq,
      e.session.read = some { p.applicationKeys e.accepted g with seq }
  | .closed => True

structure Progress (e : Exchange) : Prop where
  genuine : p.Genuine e.accepted
  host : e.session.host = p.host
  id : e.session.helloId = p.id
  transcript : e.session.transcript = p.transcript (e.accepted.take 5)
  stage : p.Stage e

/-- A record of application data: its bytes and what it carried. -/
structure Opened where
  header : List UInt8
  body : List UInt8
  content : List UInt8

/-- The record opens under the application keys, as application data. -/
def Authentic (ms : List Accepted) (r : Opened) : Prop :=
  5 ≤ ms.length ∧ ∃ g seq zeros,
    p.crypto.gcmOpen (p.applicationKeys ms g).key ((p.applicationKeys ms g).nonceAt seq) r.header
      r.body = some (r.content ++ APPLICATION_DATA :: List.replicate zeros 0)

/-- The plaintext is what such records carried. -/
def Delivered (e : Exchange) : Prop :=
  ∃ rs : List Opened, e.plain = rs.flatMap Opened.content ∧ ∀ r ∈ rs, p.Authentic e.accepted r

/-- The session is where its messages brought it, or closed. -/
def Inv (e : Exchange) : Prop := (e.session.state ≠ .closed → p.Progress e) ∧ p.Delivered e

/-! ### One more message -/

variable {p} {ms : List Accepted} {m : Accepted} {e : Exchange}

theorem Genuine.snoc (h : p.Genuine ms) (hm : p.Checked ms m) : p.Genuine (ms ++ [m]) := by
  intro i m' hi
  rcases Nat.lt_trichotomy i ms.length with hlt | rfl | hgt
  · rw [List.getElem?_append_left hlt] at hi
    rw [List.take_append_of_le_length hlt.le]
    exact h i m' hi
  · rw [List.getElem?_append_right le_rfl, Nat.sub_self] at hi
    obtain rfl := Option.some.inj hi
    rw [List.take_append_of_le_length le_rfl, List.take_length]
    exact hm
  · rw [List.getElem?_eq_none (by simp only [List.length_append, List.length_singleton]; omega)] at hi
    cases hi

theorem transcript_snoc (ms : List Accepted) (m : Accepted) :
    p.transcript (ms ++ [m]) = p.transcript ms ++ m.whole := by
  simp [transcript]

/-- The first five messages are the transcript; later ones do not enter it. -/
theorem transcript_take_snoc (h : ms.length < 5) :
    p.transcript ((ms ++ [m]).take 5) = p.transcript (ms.take 5) ++ m.whole := by
  rw [List.take_of_length_le (by simp only [List.length_append, List.length_singleton]; omega),
    List.take_of_length_le h.le, transcript_snoc]

theorem applicationKeys_snoc (h : 5 ≤ ms.length) (g : ℕ) :
    p.applicationKeys (ms ++ [m]) g = p.applicationKeys ms g := by
  have hhead : (ms ++ [m]).head? = ms.head? := by
    cases ms with
    | nil => simp at h
    | cons a l => rfl
  rw [applicationKeys, applicationKeys, hhead, List.take_append_of_le_length h]

theorem Authentic.snoc {r : Opened} (h : p.Authentic ms r) : p.Authentic (ms ++ [m]) r := by
  obtain ⟨hlen, g, seq, zeros, hopen⟩ := h
  refine ⟨by simp only [List.length_append]; omega, g, seq, zeros, ?_⟩
  rw [applicationKeys_snoc hlen]
  exact hopen

/-- What is delivered depends on the plaintext and the messages alone, and stays delivered. -/
theorem Delivered.of_eq {e' : Exchange} (h : p.Delivered e) (hplain : e'.plain = e.plain)
    (haccepted : e'.accepted = e.accepted) : p.Delivered e' := by
  obtain ⟨rs, hrs, hall⟩ := h
  exact ⟨rs, hplain.trans hrs, by rwa [haccepted]⟩

theorem Delivered.snoc {e' : Exchange} (h : p.Delivered e) (hplain : e'.plain = e.plain)
    (haccepted : e'.accepted = e.accepted ++ [m]) : p.Delivered e' := by
  obtain ⟨rs, hrs, hall⟩ := h
  refine ⟨rs, hplain.trans hrs, ?_⟩
  rw [haccepted]
  exact fun r hr => (hall r hr).snoc

theorem Keyed.snoc {e' : Exchange} (h : p.Keyed e) (haccepted : e'.accepted = e.accepted ++ [m])
    (hserver : e'.session.serverSecret = e.session.serverSecret)
    (hpending : e'.session.pending = e.session.pending) (hread : e'.session.read = e.session.read) :
    p.Keyed e' := by
  obtain ⟨sh, rest, hsh, hs, hp, hr⟩ := h
  refine ⟨sh, rest ++ [m], by rw [haccepted, hsh, List.cons_append], ?_, ?_, ?_⟩
  · rw [hserver, hs]
  · rw [hpending, hp]
  · rw [hread, hr]

section Steps

variable {now : ℤ} {whole body : List UInt8} {write : Option Direction} {out : List UInt8}
  {frames : List Frame} {generation : ℕ}

/-- The stage of a session that is not closed. -/
theorem Inv.progress (h : p.Inv e) {state : State} (hs : e.session.state = state)
    (hne : state ≠ .closed) : p.Progress e :=
  h.1 (by rwa [hs])

theorem Inv.accepted_of_serverHello (h : p.Inv e) (hs : e.session.state = .serverHello) :
    e.accepted = [] ∧ e.session.ephemeral = p.ephemeral ∧ e.session.transcript = p.hello := by
  have hp := h.progress hs nofun
  obtain ⟨hnil, heph, -⟩ : e.accepted = [] ∧ e.session.ephemeral = p.ephemeral ∧
      e.session.read = none := by
    simpa only [Stage, hs] using hp.stage
  refine ⟨hnil, heph, ?_⟩
  rw [hp.transcript, hnil]
  exact List.append_nil _

/-- The secrets the session derives from a `ServerHello` are those of the message. -/
theorem Inv.shared_eq {share : List UInt8} (h : p.Inv e) (hs : e.session.state = .serverHello)
    (hwhole : whole = handshakeMessage SERVER_HELLO body)
    (hshare : readHello e.session.helloId body = .ok share) :
    p.shared whole = p.crypto.x25519 e.session.ephemeral share ∧
      p.secrets whole = handshakeSecrets p.crypto (p.crypto.x25519 e.session.ephemeral share)
        (p.crypto.sha256 (e.session.transcript ++ whole)) := by
  obtain ⟨-, heph, htranscript⟩ := h.accepted_of_serverHello hs
  have hshared : p.shared whole = p.crypto.x25519 p.ephemeral share := by
    rw [shared, hwhole, drop_handshakeMessage, ← (h.progress hs nofun).id, hshare]
    rfl
  rw [heph, htranscript, ← hshared]
  exact ⟨rfl, rfl⟩

theorem Inv.serverHello {share : List UInt8} {k : Secrets} (h : p.Inv e)
    (hs : e.session.state = .serverHello) (hwhole : whole = handshakeMessage SERVER_HELLO body)
    (hshare : readHello e.session.helloId body = .ok share)
    (hzero : p.crypto.x25519 e.session.ephemeral share ≠ List.replicate 32 0)
    (hk : k = handshakeSecrets p.crypto (p.crypto.x25519 e.session.ephemeral share)
      (p.crypto.sha256 (e.session.transcript ++ whole))) :
    p.Inv { e with
      session := { e.session with
        ephemeral := List.replicate 32 0
        transcript := e.session.transcript ++ whole
        clientSecret := k.client
        serverSecret := k.server
        pending := k.pending
        read := some (Direction.new p.crypto k.server)
        write := some (Direction.new p.crypto k.client)
        state := .encryptedExtensions }
      generation := e.generation + 1
      accepted := e.accepted ++ [⟨now, whole⟩] } := by
  have hp := h.progress hs nofun
  obtain ⟨hnil, heph, -⟩ := h.accepted_of_serverHello hs
  obtain ⟨hshared, hsecrets⟩ := h.shared_eq hs hwhole hshare
  rw [← hsecrets] at hk
  refine ⟨fun _ => ⟨hp.genuine.snoc ?_, hp.host, hp.id, ?_, ?_⟩, h.2.snoc rfl rfl⟩
  · rw [hnil]
    exact ⟨body, share, hwhole, hp.id ▸ isServerHello_of_readHello hshare, heph ▸ hshared, hshared ▸ hzero⟩
  · rw [transcript_take_snoc (by simp [hnil]), hp.transcript]
  · refine ⟨by simp [hnil], ⟨⟨now, whole⟩, [], by simp [hnil], ?_, ?_, rfl⟩⟩
    · rw [hk]
    · rw [hk]

theorem Inv.encryptedExtensions (h : p.Inv e) (hs : e.session.state = .encryptedExtensions)
    (hwhole : whole = handshakeMessage ENCRYPTED_EXTENSIONS body)
    (hread : readEncryptedExtensions body = .ok ()) :
    p.Inv { e with
      session := { e.session with
        transcript := e.session.transcript ++ whole
        state := .certificate }
      accepted := e.accepted ++ [⟨now, whole⟩] } := by
  have hp := h.progress hs nofun
  obtain ⟨hlen, hkeyed⟩ : e.accepted.length = 1 ∧ p.Keyed e := by
    simpa only [Stage, hs] using hp.stage
  refine ⟨fun _ => ⟨hp.genuine.snoc ?_, hp.host, hp.id, ?_, ?_⟩, h.2.snoc rfl rfl⟩
  · obtain ⟨a, ha⟩ := List.length_eq_one_iff.mp hlen
    rw [ha]
    exact ⟨body, hwhole, isEncryptedExtensions_of_read hread⟩
  · rw [transcript_take_snoc (by omega), hp.transcript]
  · exact ⟨by simp [hlen], hkeyed.snoc rfl rfl rfl rfl⟩

theorem Inv.certificate {chain : List Certificate} (h : p.Inv e)
    (hs : e.session.state = .certificate) (hwhole : whole = handshakeMessage CERTIFICATE body)
    (hchain : readChain p.crypto body = .ok chain)
    (hverify : verifyChain p.crypto p.anchors now chain e.session.host = .ok ()) :
    p.Inv { e with
      session := { e.session with
        peer := chain.head?.bind Certificate.key
        transcript := e.session.transcript ++ whole
        state := .certificateVerify }
      accepted := e.accepted ++ [⟨now, whole⟩] } := by
  have hp := h.progress hs nofun
  obtain ⟨hlen, hkeyed⟩ : e.accepted.length = 2 ∧ p.Keyed e := by
    simpa only [Stage, hs] using hp.stage
  rw [hp.host] at hverify
  refine ⟨fun _ => ⟨hp.genuine.snoc ?_, hp.host, hp.id, ?_, ?_⟩, h.2.snoc rfl rfl⟩
  · obtain ⟨a, b, hab⟩ := List.length_eq_two.mp hlen
    rw [hab]
    exact ⟨body, chain, hwhole, hchain, hverify⟩
  · rw [transcript_take_snoc (by omega), hp.transcript]
  · obtain ⟨leaf, hleaf, -, -, hsome⟩ := serves_of_verifyChain hverify
    obtain ⟨key, hkey⟩ := Option.isSome_iff_exists.mp hsome
    refine ⟨by simp [hlen], hkeyed.snoc rfl rfl rfl rfl,
      ⟨⟨now, whole⟩, chain, leaf, key, ?_, ?_, hleaf, hkey, ?_⟩⟩
    · simp [hlen]
    · rw [hwhole, drop_handshakeMessage]
      exact hchain
    · simp [hleaf, hkey]

theorem Inv.certificateVerify {scheme sig : List UInt8} (h : p.Inv e)
    (hs : e.session.state = .certificateVerify)
    (hwhole : whole = handshakeMessage CERTIFICATE_VERIFY body)
    (hread : readVerify body = .ok (scheme, sig))
    (hcheck : checkVerify p.crypto e.session.peer
      (verifyDigest p.crypto (p.crypto.sha256 e.session.transcript)) scheme sig = .ok true) :
    p.Inv { e with
      session := { e.session with
        transcript := e.session.transcript ++ whole
        state := .finished }
      accepted := e.accepted ++ [⟨now, whole⟩] } := by
  have hp := h.progress hs nofun
  obtain ⟨hlen, hkeyed, ce, chain, leaf, key, hce, hchain, hleaf, hkey, hpeer⟩ :
      e.accepted.length = 3 ∧ p.Keyed e ∧ p.Leaf e := by
    simpa only [Stage, hs] using hp.stage
  refine ⟨fun _ => ⟨hp.genuine.snoc ?_, hp.host, hp.id, ?_, ?_⟩, h.2.snoc rfl rfl⟩
  · obtain ⟨key', hkey', hverifies⟩ := verifies_of_check hread hcheck
    obtain rfl := Option.some.inj (hpeer.symm.trans hkey')
    rw [hp.transcript, List.take_of_length_le (by omega)] at hverifies
    obtain ⟨a, b, d, habd⟩ := List.length_eq_three.mp hlen
    rw [habd] at hce hverifies ⊢
    obtain rfl := Option.some.inj hce
    exact ⟨chain, leaf, key, body, hchain, hleaf, hkey, hwhole, hverifies⟩
  · rw [transcript_take_snoc (by omega), hp.transcript]
  · exact ⟨by simp [hlen], hkeyed.snoc rfl rfl rfl rfl⟩

/-- The secret and the transcript behind the application keys. -/
theorem Inv.finishing (h : p.Inv e) (hs : e.session.state = .finished) :
    e.accepted.length = 4 ∧ ∃ sh rest, e.accepted = sh :: rest ∧
      e.session.serverSecret = (p.secrets sh.whole).server ∧
      e.session.pending = (p.secrets sh.whole).pending ∧
      e.session.transcript = p.transcript e.accepted := by
  have hp := h.progress hs nofun
  obtain ⟨hlen, sh, rest, hsh, hserver, hpending, -⟩ : e.accepted.length = 4 ∧ p.Keyed e := by
    simpa only [Stage, hs] using hp.stage
  refine ⟨hlen, sh, rest, hsh, hserver, hpending, ?_⟩
  rw [hp.transcript, List.take_of_length_le (by omega)]

/-- The application secrets the session derives are those of its first five messages. -/
theorem Inv.applicationSecrets_eq (h : p.Inv e) (hs : e.session.state = .finished) (m : Accepted) :
    applicationSecrets p.crypto e.session.pending (p.crypto.sha256 (e.session.transcript ++ m.whole)) =
      applicationSecrets p.crypto
        (p.secrets ((e.accepted ++ [m]).head?.elim [] Accepted.whole)).pending
        (p.crypto.sha256 (p.transcript ((e.accepted ++ [m]).take 5))) := by
  obtain ⟨hlen, sh, rest, hsh, -, hpending, htranscript⟩ := h.finishing hs
  have htake : (e.accepted ++ [m]).take 5 = e.accepted ++ [m] :=
    List.take_of_length_le (by simp [hlen])
  have hhead : (e.accepted ++ [m]).head? = some sh := by
    rw [hsh]
    rfl
  rw [htake, hhead, transcript_snoc, ← htranscript, hpending]
  rfl

theorem Inv.finished (h : p.Inv e) (hs : e.session.state = .finished)
    (hwhole : whole = handshakeMessage FINISHED body)
    (hmac : body = finishedMac p.crypto e.session.serverSecret
      (p.crypto.sha256 e.session.transcript)) :
    p.Inv { e with
      session := { e.session with
        transcript := e.session.transcript ++ whole
        pending := List.replicate 32 0
        read := some (Direction.new p.crypto (applicationSecrets p.crypto e.session.pending
          (p.crypto.sha256 (e.session.transcript ++ whole))).2)
        clientSecret := List.replicate 32 0
        serverSecret := List.replicate 32 0
        state := .connected
        write := write }
      out := out, frames := frames, generation := generation
      accepted := e.accepted ++ [⟨now, whole⟩] } := by
  have hp := h.progress hs nofun
  obtain ⟨hlen, sh, rest, hsh, hserver, -, htranscript⟩ := h.finishing hs
  refine ⟨fun _ => ⟨hp.genuine.snoc ?_, hp.host, hp.id, ?_, ?_⟩, h.2.snoc rfl rfl⟩
  · rw [hserver, htranscript] at hmac
    rw [hsh] at hlen hmac ⊢
    obtain ⟨a, b, d, rfl⟩ := List.length_eq_three.mp (Nat.succ.inj hlen)
    rw [hmac] at hwhole
    exact hwhole
  · rw [transcript_take_snoc (by omega), hp.transcript]
  · refine ⟨by simp [hlen], 0, 0, ?_⟩
    rw [applicationKeys, Function.iterate_zero, ← h.applicationSecrets_eq hs]
    rfl

/-- A later message keeps the keys or moves to the next ones. -/
theorem Inv.later {read : Option Direction} (h : p.Inv e) (hs : e.session.state = .connected)
    (hread : ∃ g seq, read = some { p.applicationKeys e.accepted g with seq }) :
    p.Inv { e with
      session := { e.session with read := read, write := write }
      out := out, frames := frames, generation := generation
      accepted := e.accepted ++ [⟨now, whole⟩] } := by
  have hp := h.progress hs nofun
  obtain ⟨hlen, -⟩ : 5 ≤ e.accepted.length ∧ ∃ g seq,
      e.session.read = some { p.applicationKeys e.accepted g with seq } := by
    simpa only [Stage, hs] using hp.stage
  refine ⟨fun _ => ⟨hp.genuine.snoc ?_, hp.host, hp.id, ?_, ?_⟩, h.2.snoc rfl rfl⟩
  · unfold Checked
    match hms : e.accepted, hlen with
    | _ :: _ :: _ :: _ :: _ :: _, _ => trivial
  · rw [List.take_append_of_le_length hlen]
    exact hp.transcript
  · obtain ⟨g, seq, rfl⟩ := hread
    have hstage : 5 ≤ (e.accepted ++ [⟨now, whole⟩] : List Accepted).length ∧ ∃ g' seq',
        some { p.applicationKeys e.accepted g with seq } =
          some { p.applicationKeys (e.accepted ++ [⟨now, whole⟩]) g' with seq := seq' } := by
      refine ⟨by simp only [List.length_append]; omega, g, seq, ?_⟩
      rw [applicationKeys_snoc hlen]
    simpa only [Stage, hs] using hstage

/-- The keys in place while connected. -/
theorem Inv.reading (h : p.Inv e) (hs : e.session.state = .connected) :
    5 ≤ e.accepted.length ∧ ∃ g seq,
      e.session.read = some { p.applicationKeys e.accepted g with seq } := by
  simpa only [Stage, hs] using (h.progress hs nofun).stage

/-- The next keys of a generation. -/
theorem update_applicationKeys (g seq : ℕ) :
    Direction.update p.crypto { p.applicationKeys ms g with seq } = p.applicationKeys ms (g + 1) := by
  rw [applicationKeys, applicationKeys, Function.iterate_succ_apply']
  rfl

theorem message_inv {last : Bool}
    (hwhole : whole = handshakeMessage (whole.headD 0) (whole.drop 4)) :
    ⦃fun e => ⌜p.Inv e⌝⦄ message (p.config now) whole last
    ⦃post⟨fun _ e => ⌜p.Inv e⌝, fun _ e => ⌜p.Delivered e⌝⟩⦄ := by
  have hkind {kind : UInt8} (h : whole.headD 0 = kind) : whole = handshakeMessage kind (whole.drop 4) := by
    rwa [← h]
  have hhello := fun e₀ => @serverHello_spec (p.config now) e₀ (whole.drop 4) whole
  have hextensions := fun e₀ => @encryptedExtensions_spec e₀ (whole.drop 4) whole
  have hcertificate := fun e₀ => @certificate_spec (p.config now) e₀ (whole.drop 4) whole
  have hverify := fun e₀ => @certificateVerify_spec (p.config now) e₀ (whole.drop 4) whole
  have hfinished := fun e₀ => @finished_spec (p.config now) e₀ (whole.drop 4) whole
  have hupdate := fun e₀ => @keyUpdate_spec (p.config now) e₀ (whole.drop 4)
  mvcgen [message, handle, Tls.session, Tls.fail, hhello, hextensions, hcertificate, hverify,
    hfinished, hupdate]
  case vc1 h _ => exact h.2
  case vc2 _ h _ hs hk _ _ hpost _ =>
    obtain ⟨share, k, hshare, hzero, hsecrets, rfl⟩ := hpost
    exact h.serverHello hs (hkind hk) hshare hzero hsecrets
  case vc3 _ h _ hs hk _ _ =>
    intro hq
    exact h.2.of_eq hq.plain hq.accepted
  case vc4 _ h _ _ _ => exact h.2
  case vc5 _ h _ hs hk _ _ hpost _ =>
    obtain ⟨hread, rfl⟩ := hpost
    exact h.encryptedExtensions hs (hkind hk) hread
  case vc6 _ h _ hs hk _ _ =>
    intro hq
    exact h.2.of_eq hq.plain hq.accepted
  case vc7 _ h _ _ _ => exact h.2
  case vc8 _ h _ hs hk _ _ hpost _ =>
    obtain ⟨chain, hchain, hv, rfl⟩ := hpost
    exact h.certificate hs (hkind hk) hchain hv
  case vc9 _ h _ hs hk _ _ =>
    intro hq
    exact h.2.of_eq hq.plain hq.accepted
  case vc10 _ h _ _ _ => exact h.2
  case vc11 _ h _ hs hk _ _ hpost _ =>
    obtain ⟨scheme, sig, hread, hcheck, rfl⟩ := hpost
    exact h.certificateVerify hs (hkind hk) hread hcheck
  case vc12 _ h _ hs hk _ _ =>
    intro hq
    exact h.2.of_eq hq.plain hq.accepted
  case vc13 _ h _ _ _ => exact h.2
  case vc14 _ h _ hs hk _ _ hpost _ =>
    obtain ⟨write, out, frames, generation, hmac, rfl⟩ := hpost
    exact h.finished hs (hkind hk) hmac
  case vc15 _ h _ hs hk _ _ =>
    intro hplain haccepted
    exact h.2.of_eq hplain haccepted
  case vc16 _ h _ _ _ => exact h.2
  case vc17 _ h _ hs _ _ => exact h.later hs (h.reading hs).2
  case vc18 _ h _ hs _ _ _ _ hpost _ =>
    obtain ⟨d, write, out, frames, generation, hd, rfl⟩ := hpost
    obtain ⟨-, g, seq, hread⟩ := h.reading hs
    obtain rfl := Option.some.inj (hd.symm.trans hread)
    exact h.later hs ⟨g + 1, _, congrArg some (update_applicationKeys g seq)⟩
  case vc19 _ h _ hs _ _ _ _ =>
    intro hplain haccepted
    exact h.2.of_eq hplain haccepted
  case vc20 _ h _ _ _ _ => exact h.2
  case vc21 _ h _ _ => exact h.2

/-- The handshake buffer and the flag of a change of cipher are no part of what is known. -/
theorem Inv.buffer {handshake : List UInt8} {changeCipherSpec : Bool} (h : p.Inv e) :
    p.Inv { e with session := { e.session with handshake, changeCipherSpec } } := by
  refine ⟨fun hne => ?_, h.2⟩
  have hp := h.1 hne
  exact ⟨hp.genuine, hp.host, hp.id, hp.transcript, hp.stage⟩

theorem Inv.closed (h : p.Delivered e) : p.Inv { e with session := { e.session with state := .closed } } :=
  ⟨fun hne => absurd rfl hne, h⟩

/-- The content of an opened record is what stands before its kind and the zeros after it. -/
theorem unpad_eq_some {opened content : List UInt8} {kind : UInt8}
    (h : unpad opened = some (content, kind)) :
    ∃ zeros, opened = content ++ kind :: List.replicate zeros 0 := by
  unfold unpad at h
  have hsplit := List.takeWhile_append_dropWhile (p := fun b : UInt8 => decide (b = 0)) (l := opened.reverse)
  have hzeros : ∀ b ∈ opened.reverse.takeWhile (fun b : UInt8 => decide (b = 0)), b = 0 := by
    intro b hb
    simpa using List.mem_takeWhile_imp hb
  cases hdrop : opened.reverse.dropWhile (fun b : UInt8 => decide (b = 0)) with
  | nil =>
    rw [hdrop] at h
    cases h
  | cons k rest =>
    rw [hdrop] at h hsplit
    dsimp only at h
    split_ifs at h
    obtain ⟨rfl, rfl⟩ := Prod.mk.inj (Option.some.inj h)
    refine ⟨(opened.reverse.takeWhile fun b : UInt8 => decide (b = 0)).length, ?_⟩
    have hrev := congrArg List.reverse hsplit
    rw [List.reverse_reverse, List.reverse_append, List.reverse_cons, List.append_assoc,
      List.eq_replicate_of_mem hzeros, List.reverse_replicate] at hrev
    exact hrev.symm

/-- Counting a record keeps the keys. -/
theorem Inv.count {d : Direction} {seq : ℕ} (h : p.Inv e) (hd : e.session.read = some d) :
    p.Inv { e with session := { e.session with read := some { d with seq } } } := by
  refine ⟨fun hne => ?_, h.2⟩
  have hp := h.1 hne
  refine ⟨hp.genuine, hp.host, hp.id, hp.transcript, ?_⟩
  have hstage := hp.stage
  have hkeyed : p.Keyed e → p.Keyed { e with session := { e.session with read := some { d with seq } } } := by
    rintro ⟨sh, rest, hsh, hserver, hpending, -⟩
    exact ⟨sh, rest, hsh, hserver, hpending, rfl⟩
  unfold Stage at hstage ⊢
  cases hs : e.session.state with
  | serverHello =>
    simp only [hs, hd] at hstage
    exact absurd hstage.2.2 nofun
  | encryptedExtensions =>
    simp only [hs] at hstage ⊢
    exact ⟨hstage.1, hkeyed hstage.2⟩
  | certificate =>
    simp only [hs] at hstage ⊢
    exact ⟨hstage.1, hkeyed hstage.2⟩
  | certificateVerify =>
    simp only [hs] at hstage ⊢
    exact ⟨hstage.1, hkeyed hstage.2.1, hstage.2.2⟩
  | finished =>
    simp only [hs] at hstage ⊢
    exact ⟨hstage.1, hkeyed hstage.2⟩
  | connected =>
    simp only [hs] at hstage ⊢
    obtain ⟨hlen, g, seq', hread⟩ := hstage
    obtain rfl := Option.some.inj (hd.symm.trans hread)
    exact ⟨hlen, g, seq, rfl⟩
  | closed => trivial

/-- A record that opened under the keys in place brings its content. -/
theorem Inv.deliver {d : Direction} {header body opened content : List UInt8} {seq seq' : ℕ}
    (h : p.Inv e) (hs : e.session.state = .connected) (hd : e.session.read = some { d with seq })
    (hopen : p.crypto.gcmOpen d.key (d.nonceAt seq') header body = some opened)
    (hunpad : unpad opened = some (content, APPLICATION_DATA)) :
    p.Inv { e with plain := e.plain ++ content } := by
  have hp := h.progress hs nofun
  refine ⟨fun _ => ⟨hp.genuine, hp.host, hp.id, hp.transcript, hp.stage⟩, ?_⟩
  obtain ⟨rs, hrs, hall⟩ := h.2
  obtain ⟨hlen, g, seq'', hread⟩ := h.reading hs
  obtain ⟨zeros, rfl⟩ := unpad_eq_some hunpad
  obtain ⟨hkey, -, -, hiv⟩ := Direction.mk.inj (Option.some.inj (hd.symm.trans hread))
  refine ⟨rs ++ [⟨header, body, content⟩], ?_, ?_⟩
  · rw [List.flatMap_append, ← hrs]
    simp
  · intro r hr
    rcases List.mem_append.mp hr with hr | hr
    · exact hall r hr
    · obtain rfl := List.mem_singleton.mp hr
      refine ⟨hlen, g, seq', zeros, ?_⟩
      rw [← hopen, hkey, Direction.nonceAt, Direction.nonceAt, hiv]

theorem alert_inv (a : Alert) :
    ⦃fun e => ⌜p.Delivered e⌝⦄ alert (p.config now).crypto a
    ⦃post⟨fun _ e => ⌜p.Inv e⌝, fun f _ => ⌜f = .panic⌝⟩⦄ := by
  have halert := fun e₁ => @alert_spec (p.config now).crypto e₁
  mvcgen [halert]
  case vc1 h _ _ =>
    rintro ⟨_, _, _, _, rfl⟩
    exact ⟨fun hne => absurd rfl hne, h⟩
  case vc2 => exact fun hf _ => hf

/-- Every call keeps what the session is known to be. -/
theorem kept (p : Start) (now : ℤ) : Kept (p.config now) p.Inv p.Delivered where
  stop h := h.2
  message hwhole := by
    have hmessage := fun last => @message_inv p now _ last hwhole
    mvcgen [hmessage]
    · exact fun h => h
    · exact fun h _ => h
  buffer h := h.buffer
  count h hd hnonce := by
    obtain ⟨rfl, rfl, -⟩ := nonce_eq_some hnonce
    exact h.count hd
  deliver h hs hd hnonce hopen hunpad := by
    obtain ⟨rfl, rfl, -⟩ := nonce_eq_some hnonce
    exact (h.count hd).deliver hs rfl hopen hunpad
  closed h := .closed h
  alert := alert_inv _

end Steps

end Start

end Chatlink.Net
