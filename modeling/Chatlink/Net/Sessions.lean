import Chatlink.Lib.Transition
import Chatlink.Net.Authentication
import Chatlink.Net.Cuts

/-!
# Runs of a session

A program gives a session what the network brings, sends data and ends it with an alert, in any
order. A panic ends the program, so it ends the run.
-/
namespace Chatlink.Net

open Std.Do Fallible Transition

set_option mvcgen.warning false

inductive Op where
  | receive (now : ℤ) (wire : List UInt8)
  | send (data : List UInt8)
  | alert (a : Alert)

namespace Start

variable {p : Start} {now : ℤ} {e e' : Exchange}

def act (p : Start) : Op → Tls ℕ
  | .receive now wire => receive (p.config now) wire
  | .send data => do
    send p.crypto data
    pure 0
  | .alert a => do
    alert p.crypto a
    pure 0

def step (p : Start) (e : Exchange) (op : Op) : Option Exchange :=
  if (after (p.act op) e).1 = .error .panic then none else some (after (p.act op) e).2

/-! ### Steps -/

theorem step_receive {wire : List UInt8} (h : p.step e (.receive now wire) = some e') :
    ∃ r, after (receive (p.config now) wire) e = (r, e') ∧ r ≠ .error .panic := by
  unfold step at h
  split_ifs at h with hpanic
  obtain rfl := Option.some.inj h
  exact ⟨_, rfl, hpanic⟩

theorem step_send {data : List UInt8} (h : p.step e (.send data) = some e') :
    after (send p.crypto data) e = (.ok (), e') := by
  unfold step act at h
  cases hr : after (send p.crypto data) e with
  | mk r e₁ =>
    cases r with
    | error f =>
      obtain ⟨rfl, -⟩ := error_of_triple (sealData_outward APPLICATION_DATA data) (.refl e) hr
      rw [after_bind_error hr] at h
      cases h
    | ok u =>
      rw [after_bind_ok hr] at h
      obtain rfl : e₁ = e' := Option.some.inj h
      rfl

theorem step_alert {a : Alert} (h : p.step e (.alert a) = some e') :
    after (alert p.crypto a) e = (.ok (), e') := by
  unfold step act at h
  cases hr : after (alert p.crypto a) e with
  | mk r e₁ =>
    cases r with
    | error f =>
      obtain ⟨rfl, -⟩ := error_of_triple (alert_spec a) rfl hr
      rw [after_bind_error hr] at h
      cases h
    | ok u =>
      rw [after_bind_ok hr] at h
      obtain rfl : e₁ = e' := Option.some.inj h
      rfl

/-- Sending and ending a session touch the write keys, the state and what is put out. -/
theorem outward_of_send {data : List UInt8} (h : p.step e (.send data) = some e') : Outward e e' :=
  ok_of_triple (sealData_outward APPLICATION_DATA data) (.refl e) (step_send h)

theorem closed_of_alert {a : Alert} (h : p.step e (.alert a) = some e') :
    ∃ write out frames generation, e' =
      { e with session := { e.session with write, state := .closed }, out, frames, generation } :=
  ok_of_triple (alert_spec a) rfl (step_alert h)

theorem Inv.outward (h : p.Inv e) (ho : Outward e e') : p.Inv e' := by
  obtain ⟨_, _, _, _, rfl⟩ := ho
  refine ⟨fun hne => ?_, h.2⟩
  have hp := h.1 hne
  exact ⟨hp.genuine, hp.host, hp.id, hp.transcript, hp.stage⟩

/-- What the calls keep, and sending keeps, holds throughout a run. -/
theorem kept_of_reachable {I D : Exchange → Prop} (hkept : ∀ now, Kept (p.config now) I D)
    (hsend : ∀ data, ⦃fun e => ⌜I e⌝⦄ send p.crypto data ⦃post⟨fun _ e => ⌜I e⌝, fun f _ => ⌜f = .panic⌝⟩⦄)
    (h0 : I p.exchange) (h : Reachable p.step Libre p.exchange e) : I e := by
  refine h.invariant h0 ?_
  intro e op e' _ hstep he
  cases op with
  | receive now wire =>
    obtain ⟨r, hr, hpanic⟩ := step_receive hstep
    have hspec := (hkept now).receiveFrom wire.length wire 0
    cases r with
    | ok n => exact ok_of_triple hspec he hr
    | error f => exact (error_of_triple hspec he hr fun hf => hpanic (by rw [hf])).1
  | send data => exact ok_of_triple (hsend data) he (step_send hstep)
  | alert a => exact ok_of_triple (hkept 0).alert ((hkept 0).stop he) (step_alert hstep)

theorem send_inv (data : List UInt8) :
    ⦃fun e => ⌜p.Inv e⌝⦄ send p.crypto data
    ⦃post⟨fun _ e => ⌜p.Inv e⌝, fun f _ => ⌜f = .panic⌝⟩⦄ := by
  have hseal := fun e₁ => @sealData_outward p.crypto e₁
  mvcgen [send, hseal]
  case vc1 => exact .refl _
  case vc2 h _ _ => exact h.outward
  case vc3 => exact fun hf _ => hf

theorem inv_exchange (p : Start) : p.Inv p.exchange := by
  refine ⟨fun _ => ⟨?_, rfl, rfl, ?_, rfl, rfl, rfl⟩, [], rfl, by simp⟩
  · intro i m hi
    cases hi
  · exact (List.append_nil _).symm

theorem inv_of_reachable (h : Reachable p.step Libre p.exchange e) : p.Inv e :=
  kept_of_reachable (kept p) send_inv (inv_exchange p) h

/-! ### Plaintext -/

/-- In this state the record opens under the application keys in place, as application data. -/
def Carries (p : Start) (e : Exchange) (r : Opened) : Prop :=
  e.session.state = .connected ∧ 5 ≤ e.accepted.length ∧ ∃ g seq zeros,
    e.session.read = some { p.applicationKeys e.accepted g with seq } ∧
    p.crypto.gcmOpen (p.applicationKeys e.accepted g).key
      ((p.applicationKeys e.accepted g).nonceAt seq) r.header r.body =
      some (r.content ++ APPLICATION_DATA :: List.replicate zeros 0)

theorem Inv.carries {header body : List UInt8} (h : p.Inv e) (hb : Brings (p.config now) header body e e') :
    ∃ r : Opened, r.header = header ∧ r.body = body ∧ p.Carries e r ∧ e'.plain = e.plain ++ r.content := by
  obtain ⟨hs, d, opened, content, hread, hopen, hunpad, hplain⟩ := hb
  obtain ⟨hlen, g, seq, hkeys⟩ := h.reading hs
  obtain ⟨zeros, rfl⟩ := unpad_eq_some hunpad
  obtain rfl := Option.some.inj (hread.symm.trans hkeys)
  exact ⟨⟨header, body, content⟩, rfl, rfl, ⟨hs, hlen, g, seq, zeros, hread, hopen⟩, hplain⟩

/-- What a call adds to the plaintext: the content of records it met while connected. -/
def Adds (p : Start) (now : ℤ) (wire : List UInt8) (e : Exchange) (plain : List UInt8) : Prop :=
  ∃ rs : List Opened, plain = e.plain ++ rs.flatMap Opened.content ∧ ∀ r ∈ rs, ∃ n e₁,
    Upto (p.config now) wire e n e₁ ∧ r.header ++ r.body <+: wire.drop n ∧ p.Carries e₁ r

theorem Adds.refl (wire : List UInt8) : p.Adds now wire e e.plain := ⟨[], by simp, by simp⟩

theorem Adds.cons {wire plain : List UInt8} {len : ℕ} {u : Unit} (h : p.Inv e)
    (hh : head e.session wire = .whole len)
    (hr : after (guardedRecord (p.config now) (wire.take HEADER) ((wire.drop HEADER).take len)) e =
      (.ok u, e'))
    (hrest : p.Adds now (wire.drop (HEADER + len)) e' plain) : p.Adds now wire e plain := by
  obtain ⟨rs, hplain, hall⟩ := hrest
  have hlater (r : Opened) (hmem : r ∈ rs) : ∃ n e₁, Upto (p.config now) wire e n e₁ ∧
      r.header ++ r.body <+: wire.drop n ∧ p.Carries e₁ r := by
    obtain ⟨n, e₁, hupto, hpre, hcarries⟩ := hall r hmem
    rw [List.drop_drop] at hpre
    exact ⟨HEADER + len + n, e₁, hupto.cons hh hr, hpre, hcarries⟩
  rcases ok_of_triple (guardedRecord_plain _ _) rfl hr with hsame | hbrings
  · exact ⟨rs, by rw [hplain, hsame], hlater⟩
  · obtain ⟨r, hheader, hbody, hcarries, hcontent⟩ := h.carries hbrings
    refine ⟨r :: rs, ?_, ?_⟩
    · rw [hplain, hcontent, List.flatMap_cons, List.append_assoc]
    · intro r' hmem
      rcases List.mem_cons.mp hmem with rfl | hmem
      · refine ⟨0, e, .zero, ?_, hcarries⟩
        rw [hheader, hbody, ← List.take_add, List.drop_zero]
        exact List.take_prefix _ _
      · exact hlater r' hmem

theorem loop_adds (h : p.Inv e) (wire : List UInt8) (used : ℕ) :
    p.Adds now wire e (after (loop (p.config now) wire used) e).2.plain := by
  induction hlen : wire.length using Nat.strong_induction_on generalizing wire e used with
  | _ k ih =>
    cases hh : head e.session wire with
    | wait =>
      rw [loop_wait hh]
      exact .refl wire
    | refused a =>
      obtain ⟨f, e', hf⟩ := after_abort (p.config now).crypto (.locally a) e ℕ
      obtain ⟨hplain, -⟩ := error_of_triple (abort_spec (.locally a)) rfl hf
      rw [loop_refused hh, hf]
      exact hplain ▸ .refl wire
    | whole len =>
      have hdrop := (length_drop_of_whole hh).1
      cases hr : after (guardedRecord (p.config now) (wire.take HEADER) ((wire.drop HEADER).take len)) e with
      | mk r e' =>
        cases r with
        | error f =>
          obtain ⟨hplain, -⟩ := error_of_triple (guardedRecord_plain _ _) rfl hr
          rw [loop_failed hh hr]
          exact hplain ▸ .refl wire
        | ok u =>
          have hinv := ok_of_triple ((kept p now).guardedRecord _ _) h hr
          rw [loop_next hh hr]
          exact .cons h hh hr (ih _ (by simp only [List.length_drop, HEADER] at *; omega) hinv _ _ rfl)

/-! ### The end of a session -/

theorem receive_of_closed (h : e.session.state = .closed) (cfg : Config) (wire : List UInt8) :
    after (receive cfg wire) e = (.ok 0, e) :=
  loop_wait (by simp [head, h])

theorem step_of_closed {op : Op} (h : e.session.state = .closed) (hstep : p.step e op = some e') :
    e'.session.state = .closed ∧ e'.plain = e.plain := by
  cases op with
  | receive now wire =>
    obtain ⟨r, hr, -⟩ := step_receive hstep
    rw [receive_of_closed h] at hr
    obtain ⟨-, rfl⟩ := Prod.mk.inj hr
    exact ⟨h, rfl⟩
  | send data =>
    obtain ⟨_, _, _, _, rfl⟩ := outward_of_send hstep
    exact ⟨h, rfl⟩
  | alert a =>
    obtain ⟨_, _, _, _, rfl⟩ := closed_of_alert hstep
    exact ⟨rfl, rfl⟩

/-- A closed session stays closed, and gives no more plaintext. -/
theorem closed_of_reachable (h : e.session.state = .closed) (hr : Reachable p.step Libre e e') :
    e'.session.state = .closed ∧ e'.plain = e.plain := by
  refine hr.invariant (I := fun s => s.session.state = .closed ∧ s.plain = e.plain) ⟨h, rfl⟩ ?_
  intro s op s' _ hstep hs
  obtain ⟨hclosed, hplain⟩ := step_of_closed hs.1 hstep
  exact ⟨hclosed, hplain.trans hs.2⟩

theorem Fails.over {cfg : Config} {wire : List UInt8} {f : Fault} (h : Fails cfg wire e f e') :
    e'.plain = e.plain ∧ (f = .panic ∨ e'.session.state = .closed) := by
  rcases h with ⟨a, -, hr⟩ | ⟨len, -, hr⟩
  · obtain ⟨hplain, -, hover⟩ := error_of_triple (abort_spec (.locally a)) rfl hr
    exact ⟨hplain, hover⟩
  · exact error_of_triple (guardedRecord_plain _ _) rfl hr

theorem receive_stop {wire : List UInt8} {err : TlsError}
    (h : after (receive (p.config now) wire) e = (.error (.stop err), e')) :
    ∃ n e₁, Upto (p.config now) wire e n e₁ ∧ Fails (p.config now) (wire.drop n) e₁ (.stop err) e' := by
  obtain ⟨n, e₁, hupto, hok | ⟨f, e₂, hr, hfails⟩⟩ := loop_ends (p.config now) e wire 0
  · cases h.symm.trans hok
  · obtain ⟨hf, rfl⟩ := Prod.mk.inj (h.symm.trans hr)
    obtain rfl := Except.error.inj hf
    exact ⟨n, e₁, hupto, hfails⟩

theorem Inv.handshake (h : p.Inv e) (hs : e.session.state = .connected) :
    ∃ sh ee ce cv fin rest, e.accepted = sh :: ee :: ce :: cv :: fin :: rest ∧ p.Checked [] sh ∧
      p.Checked [sh] ee ∧ p.Checked [sh, ee] ce ∧ p.Checked [sh, ee, ce] cv ∧
      p.Checked [sh, ee, ce, cv] fin := by
  have hgenuine := (h.progress hs nofun).genuine
  obtain ⟨hlen, -⟩ := h.reading hs
  obtain ⟨sh, ee, ce, cv, fin, rest, heq⟩ :
      ∃ sh ee ce cv fin rest, e.accepted = sh :: ee :: ce :: cv :: fin :: rest := by
    rcases ha : e.accepted with _ | ⟨sh, _ | ⟨ee, _ | ⟨ce, _ | ⟨cv, _ | ⟨fin, rest⟩⟩⟩⟩⟩
    all_goals simp_all
  rw [heq] at hgenuine
  exact ⟨sh, ee, ce, cv, fin, rest, heq, hgenuine 0 sh rfl, hgenuine 1 ee rfl, hgenuine 2 ce rfl,
    hgenuine 3 cv rfl, hgenuine 4 fin rfl⟩

/-- Whatever the network brings, in any fragmentation, and whatever the program does in between:

* an established session has accepted a `ServerHello`, `EncryptedExtensions`, a chain that was
  valid for the host when it came, a signature of the transcript under its leaf's key, and a
  `Finished` with the right code, in this order;
* its plaintext is what records of application data carried that opened under the application
  keys, and a step adds to it only what it opens so while the session is connected;
* an error of a call leaves the plaintext as it was before the record that failed, and from then
  on the session is closed and its plaintext stays. -/
theorem session_authentic (p : Start) (e : Exchange) (h : Reachable p.step Libre p.exchange e) :
    (e.session.established → ∃ sh ee ce cv fin rest,
      e.accepted = sh :: ee :: ce :: cv :: fin :: rest ∧ p.Checked [] sh ∧ p.Checked [sh] ee ∧
      p.Checked [sh, ee] ce ∧ p.Checked [sh, ee, ce] cv ∧ p.Checked [sh, ee, ce, cv] fin) ∧
    p.Delivered e ∧
    (∀ op e', p.step e op = some e' → e'.plain = e.plain ∨ ∃ now wire, op = .receive now wire ∧
      p.Adds now wire e e'.plain) ∧
    (∀ now wire err e', after (receive (p.config now) wire) e = (.error (.stop err), e') →
      ∃ n e₁, Upto (p.config now) wire e n e₁ ∧
        Fails (p.config now) (wire.drop n) e₁ (.stop err) e' ∧
        ∀ e'', Reachable p.step Libre e' e'' → e''.session.state = .closed ∧ e''.plain = e₁.plain) := by
  have hinv := inv_of_reachable h
  refine ⟨fun hs => hinv.handshake (by simpa [Session.established] using hs), hinv.2, ?_, ?_⟩
  · intro op e' hstep
    cases op with
    | receive now wire =>
      obtain ⟨r, hr, -⟩ := step_receive hstep
      have hadds := @loop_adds p now e hinv wire 0
      rw [show loop (p.config now) wire 0 = receive (p.config now) wire from rfl, hr] at hadds
      exact .inr ⟨now, wire, rfl, hadds⟩
    | send data => exact .inl (outward_of_send hstep).plain
    | alert a =>
      obtain ⟨_, _, _, _, rfl⟩ := closed_of_alert hstep
      exact .inl rfl
  · intro now wire err e' hr
    obtain ⟨n, e₁, hupto, hfails⟩ := receive_stop hr
    obtain ⟨hplain, hover⟩ := Fails.over hfails
    have hclosed := hover.resolve_left nofun
    refine ⟨n, e₁, hupto, hfails, ?_⟩
    intro e'' hreach
    obtain ⟨hstate, hsame⟩ := closed_of_reachable hclosed hreach
    exact ⟨hstate, hsame.trans hplain⟩

end Start

/-! ### A session with one server -/

namespace Hub

open Renewed

/-- Sealing that hides nothing, and one code for every message. -/
def crypto : Crypto :=
  { Renewed.crypto with
    hmac := fun _ _ => digest
    gcmOpen := fun _ _ _ body => some body }

def start : Start where
  crypto := crypto
  anchors := [renewed, old]
  host := "hub.test"
  random := List.replicate 32 1
  id := List.replicate 32 2
  ephemeral := List.replicate 32 3

def serverHello : List UInt8 :=
  handshakeMessage SERVER_HELLO ([3, 3] ++ List.replicate 32 4 ++ prefixed 1 start.id ++
    AES_128_GCM_SHA256 ++ [0] ++ prefixed 2 (extension SUPPORTED_VERSIONS TLS13 ++
      extension KEY_SHARE (bigBytes 2 X25519 ++ prefixed 2 (List.replicate 32 5))))

/-- The server's other messages, in one record. -/
def flight : List UInt8 :=
  handshakeMessage ENCRYPTED_EXTENSIONS (prefixed 2 []) ++
  handshakeMessage CERTIFICATE (prefixed 1 [] ++ prefixed 3 (prefixed 3 leaf.der ++ prefixed 2 [])) ++
  handshakeMessage CERTIFICATE_VERIFY (ECDSA_P256_SHA256 ++ prefixed 2 (element 0x30
    (element 2 (bigBytes 32 key.x) ++ element 2 (bigBytes 32 s)))) ++
  handshakeMessage FINISHED digest

def sealedRecord (content : List UInt8) (kind : UInt8) : List UInt8 :=
  plainRecord APPLICATION_DATA 3 (content ++ [kind])

def wire : List UInt8 :=
  plainRecord HANDSHAKE 3 serverHello ++ plainRecord CHANGE_CIPHER_SPEC 3 [1] ++
    sealedRecord flight HANDSHAKE ++ sealedRecord (ascii "hi") APPLICATION_DATA

def arrived : Exchange := (after (receive (start.config newYear) wire) start.exchange).2

theorem reachable_arrived : Reachable start.step Libre start.exchange arrived := by
  refine .tail (.receive newYear wire) .refl trivial (if_neg ?_)
  decide +kernel

end Hub

section

open Chatlink.Net.Hub

theorem session_authentic_hub :
    arrived.session.established = true ∧ arrived.plain = ascii "hi" ∧ start.Delivered arrived ∧
      ∃ sh ee ce cv fin rest, arrived.accepted = sh :: ee :: ce :: cv :: fin :: rest ∧
        start.Checked [sh, ee] ce := by
  have hdone : arrived.session.established = true := by decide +kernel
  have hplain : arrived.plain = ascii "hi" := by decide +kernel
  obtain ⟨hmessages, hdelivered, -, -⟩ :=
    Start.session_authentic start arrived reachable_arrived
  obtain ⟨sh, ee, ce, cv, fin, rest, haccepted, -, -, hchain, -, -⟩ := hmessages hdone
  exact ⟨hdone, hplain, hdelivered, sh, ee, ce, cv, fin, rest, haccepted, hchain⟩

end

end Chatlink.Net
