import Chatlink.Net.Keeping

/-!
# What each handler does

A handler that succeeds has checked its message and moves the session on by one step; one that
fails leaves alone what the session has put out. The sealing functions touch the write keys and
the records put out, and nothing else.
-/
namespace Chatlink.Net

open Std.Do

set_option mvcgen.warning false

variable {c : Crypto} {cfg : Config} {e e₀ : Exchange} {body whole : List UInt8}

/-- Only the write keys and what has been put out may differ. -/
def Outward (e₀ e : Exchange) : Prop :=
  ∃ write out frames generation, e =
    { e₀ with session := { e₀.session with write }, out, frames, generation }

theorem Outward.refl (e : Exchange) : Outward e e := ⟨_, _, _, _, rfl⟩

theorem Outward.trans {e₁ e₂ : Exchange} (h : Outward e₀ e₁) (h' : Outward e₁ e₂) : Outward e₀ e₂ := by
  obtain ⟨_, _, _, _, rfl⟩ := h
  obtain ⟨_, _, _, _, rfl⟩ := h'
  exact ⟨_, _, _, _, rfl⟩

theorem sealPiece_outward (kind : UInt8) (piece : List UInt8) :
    ⦃fun e => ⌜Outward e₀ e⌝⦄ sealPiece c kind piece
    ⦃post⟨fun _ e => ⌜Outward e₀ e⌝, fun f e => ⌜f = .panic ∧ Outward e₀ e⌝⟩⦄ := by
  mvcgen [sealPiece, Tls.modifySession, Tls.put]
  exact Outward.trans ‹_› ⟨_, _, _, _, rfl⟩

theorem updateWrite_outward :
    ⦃fun e => ⌜Outward e₀ e⌝⦄ updateWrite c
    ⦃post⟨fun _ e => ⌜Outward e₀ e⌝, fun f e => ⌜f = .panic ∧ Outward e₀ e⌝⟩⦄ := by
  have hpiece := @sealPiece_outward c e₀
  mvcgen [updateWrite, hpiece, Tls.install]
  exact Outward.trans ‹_› ⟨_, _, _, _, rfl⟩

theorem sealPieces_outward (kind : UInt8) (data : List (List UInt8)) :
    ⦃fun e => ⌜Outward e₀ e⌝⦄ sealPieces c kind data
    ⦃post⟨fun _ e => ⌜Outward e₀ e⌝, fun f e => ⌜f = .panic ∧ Outward e₀ e⌝⟩⦄ := by
  have hpiece := @sealPiece_outward c e₀
  have hupdate := @updateWrite_outward c e₀
  induction data with
  | nil => mvcgen [sealPieces]
  | cons piece rest ih => mvcgen [sealPieces, hpiece, hupdate, ih, Tls.session]

theorem sealData_outward (kind : UInt8) (data : List UInt8) :
    ⦃fun e => ⌜Outward e₀ e⌝⦄ sealData c kind data
    ⦃post⟨fun _ e => ⌜Outward e₀ e⌝, fun f e => ⌜f = .panic ∧ Outward e₀ e⌝⟩⦄ :=
  sealPieces_outward kind (pieces data)

/-! ### Handlers -/

/-- A failure leaves alone what has been put out and what was accepted. -/
structure Quiet (e₀ e : Exchange) : Prop where
  plain : e.plain = e₀.plain
  accepted : e.accepted = e₀.accepted
  out : e.out = e₀.out
  frames : e.frames = e₀.frames
  generation : e.generation = e₀.generation
  write : e.session.write = e₀.session.write
  state : e.session.state = e₀.session.state

theorem Quiet.refl (e : Exchange) : Quiet e e := ⟨rfl, rfl, rfl, rfl, rfl, rfl, rfl⟩

theorem serverHello_spec :
    ⦃fun e => ⌜e = e₀⌝⦄ serverHello cfg body whole
    ⦃post⟨fun _ e => ⌜∃ share k, readHello e₀.session.helloId body = .ok share ∧
        cfg.crypto.x25519 e₀.session.ephemeral share ≠ List.replicate 32 0 ∧
        k = handshakeSecrets cfg.crypto (cfg.crypto.x25519 e₀.session.ephemeral share)
          (cfg.crypto.sha256 (e₀.session.transcript ++ whole)) ∧
        e = { e₀ with
          session := { e₀.session with
            ephemeral := List.replicate 32 0
            transcript := e₀.session.transcript ++ whole
            clientSecret := k.client
            serverSecret := k.server
            pending := k.pending
            read := some (Direction.new cfg.crypto k.server)
            write := some (Direction.new cfg.crypto k.client)
            state := .encryptedExtensions }
          generation := e₀.generation + 1 }⌝,
      fun _ e => ⌜Quiet e₀ e⌝⟩⦄ := by
  mvcgen [serverHello, Tls.session, Tls.lift, Tls.modifySession, Tls.fail, Tls.install]
  · subst_vars
    exact ⟨rfl, rfl, rfl, rfl, rfl, rfl, rfl⟩
  · subst_vars
    exact ⟨_, _, ‹_›, ‹_›, rfl, rfl⟩
  · subst_vars
    exact .refl _

theorem encryptedExtensions_spec :
    ⦃fun e => ⌜e = e₀⌝⦄ encryptedExtensions body whole
    ⦃post⟨fun _ e => ⌜readEncryptedExtensions body = .ok () ∧
        e = { e₀ with
          session := { e₀.session with
            transcript := e₀.session.transcript ++ whole
            state := .certificate } }⌝,
      fun _ e => ⌜Quiet e₀ e⌝⟩⦄ := by
  mvcgen [encryptedExtensions, Tls.lift, Tls.modifySession]
  · subst_vars
    exact ⟨‹_›, rfl⟩
  · subst_vars
    exact .refl _

theorem certificate_spec :
    ⦃fun e => ⌜e = e₀⌝⦄ certificate cfg body whole
    ⦃post⟨fun _ e => ⌜∃ chain, readChain cfg.crypto body = .ok chain ∧
        verifyChain cfg.crypto cfg.anchors cfg.now chain e₀.session.host = .ok () ∧
        e = { e₀ with
          session := { e₀.session with
            peer := chain.head?.bind Certificate.key
            transcript := e₀.session.transcript ++ whole
            state := .certificateVerify } }⌝,
      fun _ e => ⌜Quiet e₀ e⌝⟩⦄ := by
  have hmap (x : Except Rejected Unit) (u : Unit) (h : x.mapError rejected = .ok u) : x = .ok () := by
    cases x with
    | ok v => rfl
    | error r => cases h
  mvcgen [certificate, Tls.session, Tls.lift, Tls.modifySession]
  · subst_vars
    exact ⟨_, ‹_›, hmap _ _ ‹_›, rfl⟩
  · subst_vars
    exact .refl _
  · subst_vars
    exact .refl _

theorem certificateVerify_spec :
    ⦃fun e => ⌜e = e₀⌝⦄ certificateVerify cfg body whole
    ⦃post⟨fun _ e => ⌜∃ scheme sig, readVerify body = .ok (scheme, sig) ∧
        checkVerify cfg.crypto e₀.session.peer
          (verifyDigest cfg.crypto (cfg.crypto.sha256 e₀.session.transcript)) scheme sig = .ok true ∧
        e = { e₀ with
          session := { e₀.session with
            transcript := e₀.session.transcript ++ whole
            state := .finished } }⌝,
      fun _ e => ⌜Quiet e₀ e⌝⟩⦄ := by
  mvcgen [certificateVerify, Tls.session, Tls.lift, Tls.modifySession, Tls.fail]
  all_goals subst_vars
  · exact ⟨_, _, ‹_›, ‹_›, rfl⟩
  · exact .refl _
  · exact .refl _
  · exact .refl _

theorem finished_spec :
    ⦃fun e => ⌜e = e₀⌝⦄ finished cfg body whole
    ⦃post⟨fun _ e => ⌜∃ write out frames generation, body = finishedMac cfg.crypto
          e₀.session.serverSecret (cfg.crypto.sha256 e₀.session.transcript) ∧
        e = { e₀ with
          session := { e₀.session with
            transcript := e₀.session.transcript ++ whole
            pending := List.replicate 32 0
            read := some (Direction.new cfg.crypto (applicationSecrets cfg.crypto e₀.session.pending
              (cfg.crypto.sha256 (e₀.session.transcript ++ whole))).2)
            clientSecret := List.replicate 32 0
            serverSecret := List.replicate 32 0
            state := .connected
            write }
          out, frames, generation }⌝,
      fun _ e => ⌜e.plain = e₀.plain ∧ e.accepted = e₀.accepted⌝⟩⦄ := by
  have hseal := fun e₁ => @sealData_outward cfg.crypto e₁
  mvcgen [finished, Tls.session, Tls.modifySession, Tls.fail, Tls.put, Tls.install, hseal]
  all_goals subst_vars
  · exact ⟨rfl, rfl⟩
  · exact .refl _
  · obtain ⟨_, _, _, _, rfl⟩ := ‹Outward _ _›
    exact ⟨_, _, _, _, not_not.mp ‹_›, rfl⟩
  · rintro - ⟨_, _, _, _, rfl⟩
    exact ⟨rfl, rfl⟩

theorem keyUpdate_spec :
    ⦃fun e => ⌜e = e₀⌝⦄ keyUpdate cfg body
    ⦃post⟨fun _ e => ⌜∃ d write out frames generation, e₀.session.read = some d ∧
        e = { e₀ with
          session := { e₀.session with
            read := some (d.update cfg.crypto)
            write }
          out, frames, generation }⌝,
      fun _ e => ⌜e.plain = e₀.plain ∧ e.accepted = e₀.accepted⌝⟩⦄ := by
  have hupdate := fun e₁ => @updateWrite_outward cfg.crypto e₁
  mvcgen [keyUpdate, Tls.session, Tls.modifySession, Tls.fail, hupdate]
  all_goals subst_vars
  · exact ⟨rfl, rfl⟩
  · exact .refl _
  · rintro ⟨_, _, _, _, rfl⟩
    exact ⟨_, _, _, _, _, ‹_›, rfl⟩
  · rintro - ⟨_, _, _, _, rfl⟩
    exact ⟨rfl, rfl⟩
  · exact ⟨_, _, _, _, _, ‹_›, rfl⟩
  · exact ⟨rfl, rfl⟩

/-! ### Plaintext -/

section Plain

variable {text : List UInt8}

theorem Outward.plain (h : Outward e₀ e) : e.plain = e₀.plain := by
  obtain ⟨_, _, _, _, rfl⟩ := h
  rfl

theorem message_plain (whole : List UInt8) (last : Bool) :
    ⦃fun e => ⌜e.plain = text⌝⦄ message cfg whole last
    ⦃post⟨fun _ e => ⌜e.plain = text⌝, fun _ e => ⌜e.plain = text⌝⟩⦄ := by
  have hhello := fun e₀ => @serverHello_spec cfg e₀ (whole.drop 4) whole
  have hextensions := fun e₀ => @encryptedExtensions_spec e₀ (whole.drop 4) whole
  have hcertificate := fun e₀ => @certificate_spec cfg e₀ (whole.drop 4) whole
  have hverify := fun e₀ => @certificateVerify_spec cfg e₀ (whole.drop 4) whole
  have hfinished := fun e₀ => @finished_spec cfg e₀ (whole.drop 4) whole
  have hupdate := fun e₀ => @keyUpdate_spec cfg e₀ (whole.drop 4)
  mvcgen [message, handle, Tls.session, Tls.fail, hhello, hextensions, hcertificate, hverify,
    hfinished, hupdate]
  case vc2 h _ _ _ _ _ hpost _ =>
    obtain ⟨_, _, _, _, _, rfl⟩ := hpost
    exact h
  case vc3 h _ _ _ _ _ =>
    intro hq
    exact hq.plain.trans h
  case vc5 h _ _ _ _ _ hpost _ =>
    obtain ⟨_, rfl⟩ := hpost
    exact h
  case vc6 h _ _ _ _ _ =>
    intro hq
    exact hq.plain.trans h
  case vc8 h _ _ _ _ _ hpost _ =>
    obtain ⟨_, _, _, rfl⟩ := hpost
    exact h
  case vc9 h _ _ _ _ _ =>
    intro hq
    exact hq.plain.trans h
  case vc11 h _ _ _ _ _ hpost _ =>
    obtain ⟨_, _, _, _, rfl⟩ := hpost
    exact h
  case vc12 h _ _ _ _ _ =>
    intro hq
    exact hq.plain.trans h
  case vc14 h _ _ _ _ _ hpost _ =>
    obtain ⟨_, _, _, _, _, rfl⟩ := hpost
    exact h
  case vc15 h _ _ _ _ _ =>
    intro hplain _
    exact hplain.trans h
  case vc18 h _ _ _ _ _ _ hpost _ =>
    obtain ⟨_, _, _, _, _, _, rfl⟩ := hpost
    exact h
  case vc19 h _ _ _ _ _ _ =>
    intro hplain _
    exact hplain.trans h

theorem messages_plain (fuel : ℕ) (rest : List UInt8) :
    ⦃fun e => ⌜e.plain = text⌝⦄ messages cfg fuel rest
    ⦃post⟨fun _ e => ⌜e.plain = text⌝, fun _ e => ⌜e.plain = text⌝⟩⦄ := by
  have hmessage := @message_plain cfg text
  induction fuel generalizing rest with
  | zero => mvcgen [messages]
  | succ fuel ih => mvcgen [messages, Tls.fail, hmessage, ih]

theorem handshakeRecord_plain (content : List UInt8) :
    ⦃fun e => ⌜e.plain = text⌝⦄ handshakeRecord cfg content
    ⦃post⟨fun _ e => ⌜e.plain = text⌝, fun _ e => ⌜e.plain = text⌝⟩⦄ := by
  have hmessages := @messages_plain cfg text
  mvcgen [handshakeRecord, handshakes, Tls.session, Tls.modifySession, Tls.fail, hmessages]

theorem peerAlert_plain (content : List UInt8) :
    ⦃fun e => ⌜e.plain = text⌝⦄ peerAlert content
    ⦃post⟨fun _ e => ⌜e.plain = text⌝, fun _ e => ⌜e.plain = text⌝⟩⦄ := by
  mvcgen [peerAlert, Tls.modifySession, Tls.fail]

/-- Plaintext comes from a record that opens under the read keys while connected. -/
def Brings (cfg : Config) (header body : List UInt8) (e₀ e : Exchange) : Prop :=
  e₀.session.state = .connected ∧ ∃ d opened content, e₀.session.read = some d ∧
    cfg.crypto.gcmOpen d.key (d.nonceAt d.seq) header body = some opened ∧
    unpad opened = some (content, APPLICATION_DATA) ∧ e.plain = e₀.plain ++ content

theorem protectedRecord_plain (header body : List UInt8) :
    ⦃fun e => ⌜e = e₀⌝⦄ protectedRecord cfg header body
    ⦃post⟨fun _ e => ⌜e.plain = e₀.plain ∨ Brings cfg header body e₀ e⌝,
      fun _ e => ⌜e.plain = e₀.plain⌝⟩⦄ := by
  have hhandshake := @handshakeRecord_plain cfg e₀.plain
  have halert := @peerAlert_plain e₀.plain
  mvcgen [protectedRecord, Tls.session, Tls.modifySession, Tls.fail, hhandshake, halert]
  case vc1 h _ =>
    subst h
    rfl
  case vc2 h _ _ _ =>
    subst h
    rfl
  case vc3 h _ _ _ _ _ _ _ =>
    subst h
    rfl
  case vc4 h _ _ _ _ _ _ _ _ =>
    subst h
    rfl
  case vc5 h _ _ _ _ _ _ _ _ _ _ =>
    subst h
    rfl
  case vc6 h d hd nonce d' hnonce _ _ opened hopen content inner hunpad hinner _ =>
    subst h
    obtain ⟨rfl, rfl, -⟩ := nonce_eq_some hnonce
    obtain ⟨rfl, hs⟩ := hinner
    exact .inr ⟨hs, d, opened, content, hd, hopen, hunpad, rfl⟩
  case vc7 h _ _ _ _ _ _ _ _ _ _ _ _ _ _ =>
    subst h
    rfl
  case vc8 => exact .inl
  case vc9 h _ _ _ _ _ _ _ _ _ _ _ _ _ _ _ =>
    subst h
    rfl
  case vc10 => exact .inl
  case vc11 h _ _ _ _ _ _ _ _ _ _ _ _ _ _ _ =>
    subst h
    rfl

theorem record_plain (header body : List UInt8) :
    ⦃fun e => ⌜e = e₀⌝⦄ record cfg header body
    ⦃post⟨fun _ e => ⌜e.plain = e₀.plain ∨ Brings cfg header body e₀ e⌝,
      fun _ e => ⌜e.plain = e₀.plain⌝⟩⦄ := by
  have hhandshake := @handshakeRecord_plain cfg e₀.plain
  have halert := @peerAlert_plain e₀.plain
  have hprotected := @protectedRecord_plain cfg e₀
  mvcgen [record, Tls.session, Tls.modifySession, Tls.fail, hhandshake, halert, hprotected]
  case vc1 h _ _ _ =>
    subst h
    exact .inl rfl
  case vc2 h _ _ _ =>
    subst h
    rfl
  case vc4 h _ _ _ =>
    subst h
    rfl
  case vc5 => exact .inl
  case vc6 h _ _ _ _ =>
    subst h
    rfl
  case vc7 => exact .inl
  case vc8 h _ _ _ _ =>
    subst h
    rfl

/-- An alert closes the session and changes nothing that was received. -/
theorem alert_spec (a : Alert) :
    ⦃fun e => ⌜e = e₀⌝⦄ alert c a
    ⦃post⟨fun _ e => ⌜∃ write out frames generation, e =
        { e₀ with session := { e₀.session with write, state := .closed }, out, frames, generation }⌝,
      fun f e => ⌜f = .panic ∧ Outward e₀ e⌝⟩⦄ := by
  have hseal := fun e₁ => @sealData_outward c e₁
  mvcgen [alert, Tls.session, Tls.put, Tls.modifySession, hseal]
  all_goals subst_vars
  · exact .refl _
  · obtain ⟨_, _, _, _, rfl⟩ := ‹Outward _ _›
    exact ⟨_, _, _, _, rfl⟩
  · exact And.intro
  · exact ⟨_, _, _, _, rfl⟩

/-- After an error of the session its plaintext stands, and it is closed. -/
theorem abort_spec {α : Type} (err : TlsError) :
    ⦃fun e => ⌜e = e₀⌝⦄ (abort c err : Tls α)
    ⦃post⟨fun _ _ => ⌜False⌝, fun f e => ⌜e.plain = e₀.plain ∧ e.accepted = e₀.accepted ∧
      (f = .panic ∨ e.session.state = .closed)⌝⟩⦄ := by
  have halert := fun e₁ => @alert_spec c e₁
  mvcgen [abort, Tls.modifySession, halert]
  case vc1 h _ _ hpost _ =>
    obtain ⟨_, _, _, _, rfl⟩ := hpost
    subst h
    exact ⟨rfl, rfl, .inr rfl⟩
  case vc2 h _ _ =>
    rintro hf ⟨_, _, _, _, rfl⟩
    subst h
    exact ⟨rfl, rfl, .inl hf⟩
  case vc3 h _ =>
    subst h
    exact ⟨rfl, rfl, .inr rfl⟩

theorem guardedRecord_plain (header body : List UInt8) :
    ⦃fun e => ⌜e = e₀⌝⦄ guardedRecord cfg header body
    ⦃post⟨fun _ e => ⌜e.plain = e₀.plain ∨ Brings cfg header body e₀ e⌝,
      fun f e => ⌜e.plain = e₀.plain ∧ (f = .panic ∨ e.session.state = .closed)⌝⟩⦄ := by
  have hrecord := @record_plain cfg e₀
  have habort := fun e₁ => @abort_spec cfg.crypto e₁ Unit
  mvcgen [guardedRecord, hrecord, habort]
  case vc2 => exact id
  case vc3 => exact False.elim
  case vc4 h _ _ =>
    intro hplain _ hover
    exact ⟨hplain.trans h, hover⟩
  case vc5 h => exact ⟨h, .inl trivial⟩

end Plain

end Chatlink.Net
