import Chatlink.Net.Messages

/-!
# What the calls of a session keep

A property that every whole message keeps, and that does not depend on how records are counted
and buffered, is kept by every call. After an error something weaker holds, until the alert.
-/
namespace Chatlink.Net

open Std.Do

set_option mvcgen.warning false

variable {cfg : Config} {I D : Exchange → Prop} {e : Exchange}

theorem nonce_eq_some {d d' : Direction} {nonce : List UInt8} (h : d.nonce = some (nonce, d')) :
    nonce = d.nonceAt d.seq ∧ d' = { d with seq := d.seq + 1 } ∧ d.seq + 1 < 2 ^ 64 := by
  unfold Direction.nonce at h
  split_ifs at h with hlt
  obtain ⟨rfl, rfl⟩ := Prod.mk.inj (Option.some.inj h)
  exact ⟨rfl, rfl, hlt⟩

theorem unpad_append {piece : List UInt8} {kind : UInt8} (hlen : piece.length ≤ MAX_PLAIN)
    (hkind : kind ≠ 0) : unpad (piece ++ [kind]) = some (piece, kind) := by
  unfold unpad
  rw [List.reverse_append, List.reverse_singleton, List.singleton_append,
    List.dropWhile_cons_of_neg (by simpa using hkind)]
  simp [hlen]

/-- `I` is kept, and `D` holds after an error. -/
structure Kept (cfg : Config) (I D : Exchange → Prop) : Prop where
  stop {e : Exchange} : I e → D e
  message {whole : List UInt8} {last : Bool} :
    whole = handshakeMessage (whole.headD 0) (whole.drop 4) →
    ⦃fun e => ⌜I e⌝⦄ message cfg whole last
    ⦃post⟨fun _ e => ⌜I e⌝, fun f e => ⌜f ≠ .panic → D e⌝⟩⦄
  buffer {e : Exchange} {handshake : List UInt8} {changeCipherSpec : Bool} :
    I e → I { e with session := { e.session with handshake, changeCipherSpec } }
  count {e : Exchange} {d d' : Direction} {nonce : List UInt8} : I e → e.session.read = some d →
    d.nonce = some (nonce, d') → I { e with session := { e.session with read := some d' } }
  deliver {e : Exchange} {d d' : Direction} {nonce header body opened content : List UInt8} :
    I e → e.session.state = .connected → e.session.read = some d → d.nonce = some (nonce, d') →
    cfg.crypto.gcmOpen d'.key nonce header body = some opened →
    unpad opened = some (content, APPLICATION_DATA) →
    I { e with session := { e.session with read := some d' }, plain := e.plain ++ content }
  closed {e : Exchange} : D e → I { e with session := { e.session with state := .closed } }
  alert {a : Alert} : ⦃fun e => ⌜D e⌝⦄ alert cfg.crypto a
    ⦃post⟨fun _ e => ⌜I e⌝, fun f _ => ⌜f = .panic⌝⟩⦄

namespace Kept

variable (k : Kept cfg I D)
include k

theorem messages (fuel : ℕ) (rest : List UInt8) :
    ⦃fun e => ⌜I e⌝⦄ messages cfg fuel rest
    ⦃post⟨fun _ e => ⌜I e⌝, fun f e => ⌜f ≠ .panic → D e⌝⟩⦄ := by
  induction fuel generalizing rest with
  | zero => mvcgen [Net.messages]
  | succ fuel ih =>
    unfold Net.messages
    split_ifs with hshort hlimit hpart
    · mvcgen
    · mvcgen [Tls.fail]
      rename_i h
      exact fun _ => k.stop h
    · mvcgen
    · have hwhole := take_eq_handshakeMessage hshort hpart
      have hmessage := @k.message (rest.take (4 + bodyLength rest))
        (rest.length = 4 + bodyLength rest) (by
          rw [hwhole, drop_handshakeMessage]
          rfl)
      have hnext := ih (rest.drop (4 + bodyLength rest))
      mvcgen [hmessage, hnext]

theorem handshakes :
    ⦃fun e => ⌜I e⌝⦄ handshakes cfg
    ⦃post⟨fun _ e => ⌜I e⌝, fun f e => ⌜f ≠ .panic → D e⌝⟩⦄ := by
  have hmessages := k.messages
  mvcgen [Net.handshakes, Tls.session, Tls.modifySession, Tls.fail, hmessages]
  case vc1 h _ _ => exact k.buffer h
  case vc2 h => exact fun _ => k.stop h
  case vc3 h _ => exact k.buffer h

theorem handshakeRecord (content : List UInt8) :
    ⦃fun e => ⌜I e⌝⦄ handshakeRecord cfg content
    ⦃post⟨fun _ e => ⌜I e⌝, fun f e => ⌜f ≠ .panic → D e⌝⟩⦄ := by
  have hhandshakes := k.handshakes
  mvcgen [Net.handshakeRecord, Tls.modifySession, hhandshakes]
  rename_i h _
  exact k.buffer h

theorem peerAlert (content : List UInt8) :
    ⦃fun e => ⌜I e⌝⦄ peerAlert content
    ⦃post⟨fun _ e => ⌜I e⌝, fun f e => ⌜f ≠ .panic → D e⌝⟩⦄ := by
  mvcgen [Net.peerAlert, Tls.modifySession, Tls.fail]
  case vc1 h _ => exact k.closed (k.stop h)
  case vc3 h => exact fun _ => k.stop h
  case vc4 h => exact fun _ => k.stop h

theorem protectedRecord (header body : List UInt8) :
    ⦃fun e => ⌜I e⌝⦄ protectedRecord cfg header body
    ⦃post⟨fun _ e => ⌜I e⌝, fun f e => ⌜f ≠ .panic → D e⌝⟩⦄ := by
  have hhandshake := k.handshakeRecord
  have halert := k.peerAlert
  mvcgen [Net.protectedRecord, Tls.session, Tls.modifySession, Tls.fail, hhandshake, halert]
  case vc1 => exact absurd rfl
  case vc2 => exact absurd rfl
  case vc3 h d hd nonce d' hnonce _ _ => exact fun _ => k.stop (k.count h hd hnonce)
  case vc4 h d hd nonce d' hnonce _ _ _ => exact fun _ => k.stop (k.count h hd hnonce)
  case vc5 h d hd nonce d' hnonce _ _ _ _ _ => exact fun _ => k.stop (k.count h hd hnonce)
  case vc6 h d hd nonce d' hnonce _ _ opened hopen content inner hunpad hinner _ =>
    obtain ⟨rfl, hs⟩ := hinner
    exact k.deliver h hs hd hnonce hopen hunpad
  case vc7 h d hd nonce d' hnonce _ _ _ _ _ _ _ _ _ => exact k.count h hd hnonce
  case vc8 h d hd nonce d' hnonce _ _ _ _ _ _ _ _ _ _ => exact k.count h hd hnonce
  case vc9 h d hd nonce d' hnonce _ _ _ _ _ _ _ _ _ _ =>
    exact fun _ => k.stop (k.count h hd hnonce)

theorem record (header body : List UInt8) :
    ⦃fun e => ⌜I e⌝⦄ record cfg header body
    ⦃post⟨fun _ e => ⌜I e⌝, fun f e => ⌜f ≠ .panic → D e⌝⟩⦄ := by
  have hhandshake := k.handshakeRecord
  have halert := k.peerAlert
  have hprotected := k.protectedRecord
  mvcgen [Net.record, Tls.session, Tls.modifySession, Tls.fail, hhandshake, halert, hprotected]
  case vc1 h _ _ _ => exact k.buffer h
  case vc2 h _ _ _ => exact fun _ => k.stop (k.buffer h)
  case vc6 h _ _ _ _ => exact fun _ => k.stop h

/-- After the alert of an error the session is closed, and what was kept holds again. -/
theorem abort {α : Type} (err : TlsError) :
    ⦃fun e => ⌜D e⌝⦄ (abort cfg.crypto err : Tls α)
    ⦃post⟨fun _ _ => ⌜False⌝, fun f e => ⌜f ≠ .panic → I e ∧ e.session.state = .closed⌝⟩⦄ := by
  have halert := @k.alert
  mvcgen [Net.abort, Tls.modifySession, halert]
  case vc2 h _ => exact fun _ => ⟨k.closed (k.stop h), rfl⟩
  case vc3 => exact fun hf hne => absurd hf hne
  case vc4 h _ => exact fun _ => ⟨k.closed h, rfl⟩

theorem guardedRecord (header body : List UInt8) :
    ⦃fun e => ⌜I e⌝⦄ guardedRecord cfg header body
    ⦃post⟨fun _ e => ⌜I e⌝, fun f e => ⌜f ≠ .panic → I e ∧ e.session.state = .closed⌝⟩⦄ := by
  have hrecord := k.record
  have habort := fun err => k.abort (α := Unit) err
  mvcgen [Net.guardedRecord, hrecord, habort]
  case vc2 => exact id
  case vc3 h => exact h nofun
  case vc4 => exact False.elim
  case vc5 => exact absurd rfl

theorem receiveFrom (fuel : ℕ) (wire : List UInt8) (used : ℕ) :
    ⦃fun e => ⌜I e⌝⦄ receiveFrom cfg fuel wire used
    ⦃post⟨fun _ e => ⌜I e⌝, fun f e => ⌜f ≠ .panic → I e ∧ e.session.state = .closed⌝⟩⦄ := by
  have hrecord := k.guardedRecord
  have habort := fun err => k.abort (α := ℕ) err
  induction fuel generalizing wire used with
  | zero => mvcgen [Net.receiveFrom]
  | succ fuel ih =>
    mvcgen [Net.receiveFrom, Tls.session, hrecord, habort, ih]
    case vc2 h _ _ _ _ => exact k.stop h
    case vc3 => exact False.elim
    case vc4 h _ _ _ _ _ => exact k.stop h
    case vc5 => exact False.elim

end Kept

end Chatlink.Net
