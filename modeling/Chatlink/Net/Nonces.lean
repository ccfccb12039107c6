import Chatlink.Net.Peer
import Chatlink.Net.Sessions

/-!
# The keys and nonces a session writes with

Whatever a session seals, a peer that knows the two secrets of its client opens, with the key of
the generation and the next nonce of that key.
-/
namespace Chatlink.Net

open Std.Do Fallible Transition

set_option mvcgen.warning false

variable {c : Crypto} {app : List UInt8} {e e₀ e₁ e₂ : Exchange} {n m : ℕ}

/-- The sealed records among the frames. -/
def sealedOf (frames : List Frame) : List Sealed :=
  frames.filterMap fun
    | .plain _ => none
    | .sealed r => some r

theorem sealedOf_append (fs gs : List Frame) : sealedOf (fs ++ gs) = sealedOf fs ++ sealedOf gs :=
  List.filterMap_append

/-- How many of the records carry the client's `Finished`. -/
def finishes (frames : List Frame) : ℕ := (sealedOf frames).countP fun r => r.opening.IsFinished

theorem finishes_append (fs gs : List Frame) : finishes (fs ++ gs) = finishes fs + finishes gs := by
  rw [finishes, sealedOf_append, List.countP_append]
  rfl

/-- The peer at the end of what was sealed. -/
def Exchange.peer (e : Exchange) : Peer := ⟨e.session.write, e.generation⟩

/-- From `e` to `e'` frames were put out, `n` of them with a `Finished`, and the peer opens the
sealed ones. -/
def Puts (c : Crypto) (app : List UInt8) (n : ℕ) (e e' : Exchange) : Prop :=
  ∃ fs, e'.out = e.out ++ fs.flatMap Frame.bytes ∧ e'.frames = e.frames ++ fs ∧ finishes fs = n ∧
    e'.accepted = e.accepted ∧ Reads c app e.peer (sealedOf fs) e'.peer

theorem Puts.refl (c : Crypto) (app : List UInt8) (e : Exchange) : Puts c app 0 e e :=
  ⟨[], by simp, by simp, rfl, rfl, .nil⟩

theorem Puts.trans (h : Puts c app n e₀ e₁) (h' : Puts c app m e₁ e₂) : Puts c app (n + m) e₀ e₂ := by
  obtain ⟨fs, hout, hframes, hn, haccepted, hreads⟩ := h
  obtain ⟨gs, hout', hframes', hm, haccepted', hreads'⟩ := h'
  refine ⟨fs ++ gs, ?_, ?_, ?_, haccepted'.trans haccepted, ?_⟩
  · rw [hout', hout, List.flatMap_append, List.append_assoc]
  · rw [hframes', hframes, List.append_assoc]
  · rw [finishes_append, hn, hm]
  · rw [sealedOf_append]
    exact hreads.append hreads'

/-- Only what is put out counts. -/
theorem Puts.of_eq {e' : Exchange} (h : Puts c app n e₀ e) (hout : e'.out = e.out)
    (hframes : e'.frames = e.frames) (haccepted : e'.accepted = e.accepted)
    (hpeer : e'.peer = e.peer) : Puts c app n e₀ e' := by
  unfold Puts at h ⊢
  rwa [hout, hframes, haccepted, hpeer]

/-! ### One record -/

/-- What sealing one record does. -/
def Seals (c : Crypto) (kind : UInt8) (piece : List UInt8) (e e' : Exchange) : Prop :=
  ∃ d d' nonce r, e.session.write = some d ∧ d.nonce = some (nonce, d') ∧
    r.opening = ⟨e.generation, nonce, piece, kind⟩ ∧
    r.body = c.gcmSeal d'.key nonce r.header (piece ++ [kind]) ∧
    e' = { e with
      session := { e.session with write := some d' }
      out := e.out ++ (Frame.sealed r).bytes
      frames := e.frames ++ [.sealed r] }

theorem sealPiece_spec (kind : UInt8) (piece : List UInt8) :
    ⦃fun e => ⌜e = e₀⌝⦄ sealPiece c kind piece
    ⦃post⟨fun _ e => ⌜Seals c kind piece e₀ e⌝, fun f _ => ⌜f = .panic⌝⟩⦄ := by
  mvcgen [sealPiece, Tls.modifySession, Tls.put]
  subst_vars
  exact ⟨_, _, _, _, ‹_›, ‹_›, rfl, rfl, rfl⟩

/-- The peer opens a record that was sealed, and goes on from it. -/
theorem Seals.read {kind : UInt8} {piece : List UInt8} (app : List UInt8) (hc : c.Lawful) (h : Seals c kind piece e₀ e)
    (hlen : piece.length ≤ MAX_PLAIN) (hkind : kind ≠ 0) :
    ∃ d r, e = { e₀ with
        session := { e₀.session with write := some d }
        out := e₀.out ++ (Frame.sealed r).bytes
        frames := e₀.frames ++ [.sealed r] } ∧
      r.opening.content = piece ∧ r.opening.kind = kind ∧ r.opening.generation = e₀.generation ∧
      Reads c app e₀.peer [r] (Peer.next c app d r.opening) := by
  obtain ⟨d, d', nonce, r, hwrite, hnonce, hopening, hbody, rfl⟩ := h
  refine ⟨d', r, rfl, by rw [hopening], by rw [hopening], by rw [hopening], ?_⟩
  have hread : e₀.peer.read c app r.header r.body = some (r.opening, Peer.next c app d' r.opening) := by
    simp only [Peer.read, Exchange.peer, hwrite, hnonce, hbody, hc.open_seal, unpad_append hlen hkind,
      Option.bind_eq_bind, Option.bind_some, hopening]
    rfl
  exact reads_cons.mpr ⟨_, hread, .nil⟩

/-- Frames were put out that any peer with the session's keys opens. -/
def Sends (c : Crypto) (e e' : Exchange) : Prop := ∀ app, Puts c app 0 e e'

theorem Sends.refl (c : Crypto) (e : Exchange) : Sends c e e := fun app => .refl c app e

theorem Sends.trans (h : Sends c e₀ e₁) (h' : Sends c e₁ e₂) : Sends c e₀ e₂ :=
  fun app => (h app).trans (h' app)

theorem Sends.of_eq {e' : Exchange} (h : Sends c e₀ e) (hout : e'.out = e.out)
    (hframes : e'.frames = e.frames) (haccepted : e'.accepted = e.accepted)
    (hpeer : e'.peer = e.peer) : Sends c e₀ e' :=
  fun app => (h app).of_eq hout hframes haccepted hpeer

theorem Seals.sends {kind : UInt8} {piece : List UInt8} (hc : c.Lawful) (h : Seals c kind piece e₀ e)
    (hlen : piece.length ≤ MAX_PLAIN) (hkind : kind ≠ 0) (hne : kind ≠ HANDSHAKE) : Sends c e₀ e := by
  intro app
  obtain ⟨d, r, rfl, hcontent, hk, hgen, hread⟩ := h.read app hc hlen hkind
  have hnot : ¬r.opening.Announces := by
    rintro (h | h)
    · exact hne (hk ▸ h.1)
    · exact hne (hk ▸ h.1)
  refine ⟨[.sealed r], by simp, rfl, ?_, rfl, ?_⟩
  · have hf : ¬r.opening.IsFinished := fun h => hnot (.inr h)
    simp [finishes, sealedOf, hf]
  · rw [Peer.next_of_not_announces hnot, hgen] at hread
    exact hread

/-- A `KeyUpdate`, and then the next keys. -/
theorem Seals.updates (hc : c.Lawful) (h : Seals c HANDSHAKE keyUpdateMessage e₀ e) :
    ∃ d, e.session.write = some d ∧ Sends c e₀ { e with
      session := { e.session with write := some (d.update c) }
      generation := e.generation + 1 } := by
  have hread (app : List UInt8) := h.read app hc (by decide) (by decide)
  obtain ⟨d, r, rfl, -⟩ := hread []
  refine ⟨d, rfl, fun app => ?_⟩
  obtain ⟨d', r', heq, hcontent, hk, hgen, hread⟩ := hread app
  have hframes : e₀.frames ++ [.sealed r] = e₀.frames ++ [.sealed r'] := congrArg Exchange.frames heq
  have hwrite : some d = some d' := congrArg (fun e => e.session.write) heq
  obtain rfl := Option.some.inj hwrite
  obtain rfl := Frame.sealed.inj (List.singleton_inj.mp (List.append_cancel_left hframes))
  have hu : r.opening.IsKeyUpdate := ⟨hk, by rw [hcontent]; rfl⟩
  have hf : ¬r.opening.IsFinished := by
    intro hf
    have := hu.2.symm.trans hf.2
    cases this
  refine ⟨[.sealed r], by simp, rfl, by simp [finishes, sealedOf, hf], rfl, ?_⟩
  rw [Peer.next, if_pos hu, hgen] at hread
  exact hread

theorem updateWrite_sends (hc : c.Lawful) :
    ⦃fun e => ⌜Sends c e₀ e⌝⦄ updateWrite c
    ⦃post⟨fun _ e => ⌜Sends c e₀ e⌝, fun f _ => ⌜f = .panic⌝⟩⦄ := by
  have hpiece := fun e₁ => @sealPiece_spec c e₁
  mvcgen [updateWrite, hpiece, Tls.install]
  case vc1 h _ _ hseals d hd _ =>
    obtain ⟨d', hd', hsends⟩ := hseals.updates hc
    obtain rfl := Option.some.inj (hd.symm.trans hd')
    exact h.trans hsends

theorem sealPieces_sends (hc : c.Lawful) {kind : UInt8} (hkind : kind ≠ 0) (hne : kind ≠ HANDSHAKE)
    (ps : List (List UInt8)) (hlen : ∀ piece ∈ ps, piece.length ≤ MAX_PLAIN) :
    ⦃fun e => ⌜Sends c e₀ e⌝⦄ sealPieces c kind ps
    ⦃post⟨fun _ e => ⌜Sends c e₀ e⌝, fun f _ => ⌜f = .panic⌝⟩⦄ := by
  have hpiece := fun e₁ => @sealPiece_spec c e₁
  have hupdate := @updateWrite_sends c e₀ hc
  induction ps with
  | nil => mvcgen [sealPieces]
  | cons piece rest ih =>
    have hrest := ih fun p hp => hlen p (List.mem_cons_of_mem piece hp)
    have hseals {e₁ e₂ : Exchange} (h : Sends c e₀ e₁) (h' : Seals c kind piece e₁ e₂) : Sends c e₀ e₂ :=
      h.trans (h'.sends hc (hlen piece List.mem_cons_self) hkind hne)
    mvcgen [sealPieces, hpiece, hupdate, hrest, Tls.session]
    all_goals exact hseals ‹_› ‹_›

/-- The pieces are never too long for a record. -/
theorem length_of_mem_pieces (data : List UInt8) : ∀ piece ∈ pieces data, piece.length ≤ MAX_PLAIN := by
  have hpush (k : ℕ) (acc : Array UInt8) (done : Array (List UInt8)) (hacc : acc.size ≤ k)
      (hdone : ∀ l ∈ done.toList, l.length ≤ k) : ∀ l ∈ (done.push acc.toList).toList, l.length ≤ k := by
    intro l hl
    rw [Array.toList_push, List.mem_append, List.mem_singleton] at hl
    rcases hl with hl | rfl
    · exact hdone l hl
    · simpa using hacc
  have hgo (k : ℕ) (hk : 1 ≤ k) (xs : List UInt8) (acc : Array UInt8) (done : Array (List UInt8))
      (hacc : acc.size ≤ k) (hdone : ∀ l ∈ done.toList, l.length ≤ k) :
      ∀ l ∈ List.toChunks.go k xs acc done, l.length ≤ k := by
    induction xs generalizing acc done with
    | nil => exact hpush k acc done hacc hdone
    | cons x xs ih =>
      rw [List.toChunks.go]
      split_ifs with hfull
      · exact ih _ _ (by simpa using hk) (hpush k acc done hacc hdone)
      · refine ih _ _ ?_ hdone
        have hne : acc.size ≠ k := by simpa using hfull
        rw [Array.size_push]
        omega
  cases data with
  | nil =>
    intro piece hp
    obtain rfl := List.mem_singleton.mp hp
    exact Nat.zero_le _
  | cons x xs => exact hgo MAX_PLAIN (by decide) xs #[x] #[] (by simp [MAX_PLAIN]) (by simp)

theorem sealData_sends (hc : c.Lawful) {kind : UInt8} (hkind : kind ≠ 0) (hne : kind ≠ HANDSHAKE)
    (data : List UInt8) :
    ⦃fun e => ⌜Sends c e₀ e⌝⦄ sealData c kind data
    ⦃post⟨fun _ e => ⌜Sends c e₀ e⌝, fun f _ => ⌜f = .panic⌝⟩⦄ :=
  sealPieces_sends hc hkind hne (pieces data) (length_of_mem_pieces data)

/-- What fits a record goes in one. -/
theorem pieces_of_length_le {data : List UInt8} (hne : data ≠ []) (hlen : data.length ≤ MAX_PLAIN) :
    pieces data = [data] := by
  have hgo (k : ℕ) (xs : List UInt8) (acc : Array UInt8) (hacc : acc.size + xs.length ≤ k) :
      List.toChunks.go k xs acc #[] = [acc.toList ++ xs] := by
    induction xs generalizing acc with
    | nil => simp [List.toChunks.go]
    | cons x xs ih =>
      rw [List.length_cons] at hacc
      have hroom : ¬acc.size == k := by
        simp only [beq_iff_eq]
        omega
      rw [List.toChunks.go, if_neg hroom, ih _ (by rw [Array.size_push]; omega)]
      simp
  cases data with
  | nil => exact absurd rfl hne
  | cons x xs =>
    rw [List.length_cons] at hlen
    refine (if_neg (List.cons_ne_nil x xs)).trans ?_
    exact hgo MAX_PLAIN xs #[x] (by rw [List.size_toArray, List.length_singleton]; omega)

theorem sealData_spec {kind : UInt8} {data : List UInt8} (hkind : kind ≠ APPLICATION_DATA)
    (hne : data ≠ []) (hlen : data.length ≤ MAX_PLAIN) :
    ⦃fun e => ⌜e = e₀⌝⦄ sealData c kind data
    ⦃post⟨fun _ e => ⌜Seals c kind data e₀ e⌝, fun f _ => ⌜f = .panic⌝⟩⦄ := by
  have hpiece := fun e₁ => @sealPiece_spec c e₁
  rw [sealData, pieces_of_length_le hne hlen]
  mvcgen [sealPieces, hpiece, Tls.session]
  case vc1 h => exact absurd h.1 hkind
  case vc2 =>
    subst_vars
    assumption

/-! ### Handlers -/

/-- The client's `Finished`, and then the application keys. -/
theorem Seals.finishes {fin : List UInt8} (hc : c.Lawful) (h : Seals c HANDSHAKE fin e₀ e)
    (hfin : fin.headD 0 = FINISHED) (hlen : fin.length ≤ MAX_PLAIN) :
    Puts c app 1 e₀ { e with
      session := { e.session with write := some (Direction.new c app) }
      generation := e.generation + 1 } := by
  obtain ⟨d, r, rfl, hcontent, hk, hgen, hread⟩ := h.read app hc hlen (by decide)
  have hf : r.opening.IsFinished := ⟨hk, by rw [hcontent, hfin]⟩
  have hu : ¬r.opening.IsKeyUpdate := by
    intro hu
    have := hu.2.symm.trans hf.2
    cases this
  refine ⟨[.sealed r], by simp, rfl, by simp [Net.finishes, sealedOf, hf], rfl, ?_⟩
  rw [Peer.next, if_neg hu, if_pos hf, hgen] at hread
  exact hread

variable {cfg : Config} {body whole : List UInt8}

theorem finished_puts (hc : cfg.crypto.Lawful) :
    ⦃fun e => ⌜e = e₀⌝⦄ finished cfg body whole
    ⦃post⟨fun _ e => ⌜Puts cfg.crypto (applicationSecrets cfg.crypto e₀.session.pending
        (cfg.crypto.sha256 (e₀.session.transcript ++ whole))).1 1 e₀ e⌝,
      fun f e => ⌜f ≠ .panic → e = e₀⌝⟩⦄ := by
  have hfin (base hash : List UInt8) :
      ([FINISHED, 0, 0, 32] ++ finishedMac cfg.crypto base hash).length ≤ MAX_PLAIN := by
    rw [List.length_append, finishedMac, hc.length_hmac]
    decide
  have hseal := fun e₁ base hash => @sealData_spec cfg.crypto e₁ HANDSHAKE
    ([FINISHED, 0, 0, 32] ++ finishedMac cfg.crypto base hash) (by decide) (List.cons_ne_nil _ _)
    (hfin base hash)
  mvcgen [finished, Tls.session, Tls.modifySession, Tls.fail, Tls.put, Tls.install, hseal]
  case vc1 h _ => exact fun _ => h
  case vc2 =>
    rename_i hseals _ _
    subst_vars
    refine Puts.of_eq (Puts.trans (n := 0) (m := 1) ?_ (hseals.finishes hc rfl (hfin _ _)))
      rfl rfl rfl rfl
    exact ⟨[.plain _], by simp; rfl, rfl, rfl, rfl, .nil⟩
  case vc3 => exact absurd

theorem keyUpdate_sends (hc : cfg.crypto.Lawful) :
    ⦃fun e => ⌜e = e₀⌝⦄ keyUpdate cfg body
    ⦃post⟨fun _ e => ⌜Sends cfg.crypto e₀ e⌝, fun f e => ⌜f ≠ .panic → e = e₀⌝⟩⦄ := by
  have hupdate := @updateWrite_sends cfg.crypto e₀ hc
  mvcgen [keyUpdate, Tls.session, Tls.modifySession, Tls.fail, hupdate]
  case vc1 => exact absurd rfl
  case vc2 =>
    subst_vars
    exact (Sends.refl _ _).of_eq rfl rfl rfl rfl
  case vc3 => exact id
  case vc4 => exact absurd
  case vc5 =>
    subst_vars
    exact (Sends.refl _ _).of_eq rfl rfl rfl rfl
  case vc6 h => exact fun _ => h

theorem alert_sends (hc : c.Lawful) (a : Alert) :
    ⦃fun e => ⌜Sends c e₀ e⌝⦄ alert c a
    ⦃post⟨fun _ e => ⌜Sends c e₀ e⌝, fun f _ => ⌜f = .panic⌝⟩⦄ := by
  have hseal := fun data => @sealData_sends c e₀ hc ALERT (by decide) (by decide) data
  mvcgen [alert, Tls.session, Tls.put, Tls.modifySession, hseal]
  case vc2 h _ _ _ _ => exact h.trans fun app => ⟨[.plain _], by simp; rfl, rfl, rfl, rfl, .nil⟩

/-! ### The secrets of a session's client -/

namespace Start

variable {p : Start} {ms : List Accepted} {now : ℤ}

/-- The secret behind the client's application keys. -/
def applicationSecret (p : Start) (ms : List Accepted) : List UInt8 :=
  (applicationSecrets p.crypto (p.secrets (ms.head?.elim [] Accepted.whole)).pending
    (p.crypto.sha256 (p.transcript (ms.take 5)))).1

/-- The peer that has sent the messages `ms`, before the client's first sealed record. -/
def peer (p : Start) : List Accepted → Peer
  | [] => ⟨none, 0⟩
  | sh :: _ => ⟨some (Direction.new p.crypto (p.secrets sh.whole).client), 1⟩

/-- What has been put out so far is what this peer opens. -/
structure Ledger (p : Start) (e : Exchange) : Prop where
  out : e.out = e.frames.flatMap Frame.bytes
  finishes : finishes e.frames = if 5 ≤ e.accepted.length then 1 else 0
  reads (app : List UInt8) : (5 ≤ e.accepted.length → app = p.applicationSecret e.accepted) →
    Reads p.crypto app (p.peer e.accepted) (sealedOf e.frames) e.peer

theorem Ledger.puts {e' : Exchange} (h : p.Ledger e) (hs : Sends p.crypto e e') : p.Ledger e' := by
  obtain ⟨fs, hout, hframes, hn, haccepted, -⟩ := hs []
  refine ⟨?_, ?_, ?_⟩
  · rw [hout, h.out, hframes, List.flatMap_append]
  · rw [hframes, finishes_append, hn, haccepted, h.finishes, Nat.add_zero]
  · intro app happ
    obtain ⟨gs, -, hgs, -, -, hreads⟩ := hs app
    rw [haccepted] at happ ⊢
    rw [hgs, sealedOf_append]
    exact (h.reads app happ).append hreads

theorem Ledger.of_eq {e' : Exchange} (h : p.Ledger e) (hout : e'.out = e.out)
    (hframes : e'.frames = e.frames) (haccepted : e'.accepted = e.accepted)
    (hpeer : e'.peer = e.peer) : p.Ledger e' :=
  h.puts ((Sends.refl p.crypto e).of_eq hout hframes haccepted hpeer)

theorem applicationSecret_snoc {m : Accepted} (h : 5 ≤ ms.length) : p.applicationSecret (ms ++ [m]) = p.applicationSecret ms := by
  have hhead : (ms ++ [m]).head? = ms.head? := by
    cases ms with
    | nil => simp at h
    | cons a l => rfl
  rw [applicationSecret, applicationSecret, hhead, List.take_append_of_le_length h]

theorem peer_snoc {m : Accepted} (h : ms ≠ []) : p.peer (ms ++ [m]) = p.peer ms := by
  cases ms with
  | nil => exact absurd rfl h
  | cons a l => rfl

/-- The messages between the first and the fifth, and those after it, change no write keys. -/
theorem Ledger.accept {m : Accepted} {e' : Exchange} (h : p.Ledger e) (hne : e.accepted ≠ [])
    (h4 : e.accepted.length ≠ 4) (hout : e'.out = e.out) (hframes : e'.frames = e.frames)
    (haccepted : e'.accepted = e.accepted ++ [m]) (hpeer : e'.peer = e.peer) : p.Ledger e' := by
  have hlen : 5 ≤ e'.accepted.length ↔ 5 ≤ e.accepted.length := by
    rw [haccepted, List.length_append, List.length_singleton]
    omega
  refine ⟨?_, ?_, ?_⟩
  · rw [hout, hframes, h.out]
  · simp only [hframes, hlen]
    exact h.finishes
  · intro app happ
    have hreads := h.reads app fun h5 => by
      rw [happ (hlen.mpr h5), haccepted, applicationSecret_snoc h5]
    rw [haccepted, hframes, hpeer, peer_snoc hne]
    exact hreads

theorem Ledger.finish {m : Accepted} {e' : Exchange} (h : p.Ledger e) (h4 : e.accepted.length = 4)
    (hs : Puts p.crypto (p.applicationSecret (e.accepted ++ [m])) 1 e e') :
    p.Ledger { e' with accepted := e'.accepted ++ [m] } := by
  obtain ⟨fs, hout, hframes, hn, haccepted, hreads⟩ := hs
  have hne : e.accepted ≠ [] := by
    intro hnil
    rw [hnil] at h4
    cases h4
  have hzero := h.finishes
  rw [if_neg (by omega)] at hzero
  refine ⟨?_, ?_, ?_⟩
  · dsimp only
    rw [hout, h.out, hframes, List.flatMap_append]
  · dsimp only
    rw [hframes, finishes_append, hn, hzero, haccepted, if_pos (by simp [h4])]
  · intro app happ
    dsimp only at happ ⊢
    obtain rfl := happ (by simp [haccepted, h4])
    rw [haccepted, hframes, sealedOf_append, peer_snoc hne]
    exact (h.reads _ (by omega)).append hreads

theorem Ledger.hello {m : Accepted} {e' : Exchange} (h : p.Ledger e) (hnil : e.accepted = [])
    (hout : e'.out = e.out) (hframes : e'.frames = e.frames) (hm : e'.accepted = [m])
    (hwrite : e'.session.write = some (Direction.new p.crypto (p.secrets m.whole).client))
    (hgen : e'.generation = e.generation + 1) : p.Ledger e' := by
  have hreads := h.reads [] (by simp [hnil])
  rw [hnil] at hreads
  obtain ⟨hnone, hzero⟩ := hreads.of_keys_none rfl
  refine ⟨?_, ?_, ?_⟩
  · rw [hout, h.out, hframes]
  · have hfin := h.finishes
    rw [hnil] at hfin
    rw [hframes, hm, hfin]
    rfl
  · intro app _
    have hzero' : e.generation = 0 := congrArg Peer.generation hzero
    rw [hm, hframes, hnone, Exchange.peer, hwrite, hgen, hzero']
    exact .nil

variable {whole : List UInt8}

/-- Between the `ServerHello` and the `Finished`. -/
theorem Inv.between (h : p.Inv e) {state : State} (hs : e.session.state = state)
    (hstate : state = .encryptedExtensions ∨ state = .certificate ∨ state = .certificateVerify ∨
      state = .connected) : e.accepted ≠ [] ∧ e.accepted.length ≠ 4 := by
  have hlen : e.accepted.length ≠ 0 ∧ e.accepted.length ≠ 4 := by
    rcases hstate with rfl | rfl | rfl | rfl
    · have hstage := (h.progress hs (by simp)).stage
      simp only [Stage, hs] at hstage
      omega
    · have hstage := (h.progress hs (by simp)).stage
      simp only [Stage, hs] at hstage
      omega
    · have hstage := (h.progress hs (by simp)).stage
      simp only [Stage, hs] at hstage
      omega
    · have hread := (h.reading hs).1
      omega
  exact ⟨fun hnil => hlen.1 (by rw [hnil]; rfl), hlen.2⟩

theorem Ledger.quiet {e' : Exchange} (h : p.Ledger e) (hq : Quiet e e') : p.Ledger e' :=
  h.of_eq hq.out hq.frames hq.accepted (by rw [Exchange.peer, Exchange.peer, hq.write, hq.generation])

theorem message_ledger (hc : p.crypto.Lawful) {last : Bool}
    (hwhole : whole = handshakeMessage (whole.headD 0) (whole.drop 4)) :
    ⦃fun e => ⌜p.Inv e ∧ p.Ledger e⌝⦄ message (p.config now) whole last
    ⦃post⟨fun _ e => ⌜p.Ledger e⌝, fun f e => ⌜f ≠ .panic → p.Ledger e⌝⟩⦄ := by
  have hhello := fun e₀ => @serverHello_spec (p.config now) e₀ (whole.drop 4) whole
  have hextensions := fun e₀ => @encryptedExtensions_spec e₀ (whole.drop 4) whole
  have hcertificate := fun e₀ => @certificate_spec (p.config now) e₀ (whole.drop 4) whole
  have hverify := fun e₀ => @certificateVerify_spec (p.config now) e₀ (whole.drop 4) whole
  have hfinished := fun e₀ => @finished_puts e₀ (p.config now) (whole.drop 4) whole hc
  have hupdate := fun e₀ => @keyUpdate_sends e₀ (p.config now) (whole.drop 4) hc
  mvcgen [message, handle, Tls.session, Tls.fail, hhello, hextensions, hcertificate, hverify,
    hfinished, hupdate]
  case vc1 h _ => exact fun _ => h.2
  case vc2 e₁ h _ hs hk _ _ hpost _ =>
    obtain ⟨share, k, hshare, -, hsecrets, rfl⟩ := hpost
    obtain ⟨hnil, -⟩ := h.1.accepted_of_serverHello hs
    have hk' : p.secrets whole = k :=
      (h.1.shared_eq hs (hwhole.trans (congrArg (handshakeMessage · _) hk)) hshare).2.trans hsecrets.symm
    have hm : e₁.accepted ++ [⟨now, whole⟩] = [⟨now, whole⟩] := congrArg (· ++ [⟨now, whole⟩]) hnil
    have hwrite : some (Direction.new p.crypto k.client) =
        some (Direction.new p.crypto (p.secrets whole).client) := by rw [hk']
    exact h.2.hello hnil rfl rfl hm hwrite rfl
  case vc3 h _ _ _ _ _ => exact fun hq _ => h.2.quiet hq
  case vc4 h _ _ _ => exact fun _ => h.2
  case vc5 h _ hs _ _ _ hpost _ =>
    obtain ⟨-, rfl⟩ := hpost
    obtain ⟨hne, h4⟩ := h.1.between hs (.inl rfl)
    exact h.2.accept hne h4 rfl rfl rfl rfl
  case vc6 h _ _ _ _ _ => exact fun hq _ => h.2.quiet hq
  case vc7 h _ _ _ => exact fun _ => h.2
  case vc8 h _ hs _ _ _ hpost _ =>
    obtain ⟨_, -, -, rfl⟩ := hpost
    obtain ⟨hne, h4⟩ := h.1.between hs (.inr (.inl rfl))
    exact h.2.accept hne h4 rfl rfl rfl rfl
  case vc9 h _ _ _ _ _ => exact fun hq _ => h.2.quiet hq
  case vc10 h _ _ _ => exact fun _ => h.2
  case vc11 h _ hs _ _ _ hpost _ =>
    obtain ⟨_, _, -, -, rfl⟩ := hpost
    obtain ⟨hne, h4⟩ := h.1.between hs (.inr (.inr (.inl rfl)))
    exact h.2.accept hne h4 rfl rfl rfl rfl
  case vc12 h _ _ _ _ _ => exact fun hq _ => h.2.quiet hq
  case vc13 h _ _ _ => exact fun _ => h.2
  case vc14 h _ hs _ _ _ hputs _ =>
    refine h.2.finish (h.1.finishing hs).1 ?_
    have hsecret : p.applicationSecret _ = _ :=
      congrArg Prod.fst (h.1.applicationSecrets_eq hs ⟨(p.config now).now, whole⟩).symm
    rw [hsecret]
    exact hputs
  case vc15 h _ _ _ _ _ => exact fun hsame hf => hsame hf ▸ h.2
  case vc16 h _ _ _ => exact fun _ => h.2
  case vc17 h _ hs _ _ =>
    obtain ⟨hne, h4⟩ := h.1.between hs (.inr (.inr (.inr rfl)))
    exact h.2.accept hne h4 rfl rfl rfl rfl
  case vc18 h _ hs _ _ _ _ hsends _ =>
    obtain ⟨hne, h4⟩ := h.1.between hs (.inr (.inr (.inr rfl)))
    obtain ⟨-, -, -, -, haccepted, -⟩ := hsends []
    exact (h.2.puts hsends).accept (haccepted ▸ hne) (haccepted ▸ h4) rfl rfl rfl rfl
  case vc19 h _ _ _ _ _ _ => exact fun hsame hf => hsame hf ▸ h.2
  case vc20 h _ _ _ _ => exact fun _ => h.2
  case vc21 h _ _ => exact fun _ => h.2

theorem alert_ledger (hc : p.crypto.Lawful) (a : Alert) :
    ⦃fun e => ⌜p.Ledger e⌝⦄ alert (p.config now).crypto a
    ⦃post⟨fun _ e => ⌜p.Ledger e⌝, fun f _ => ⌜f = .panic⌝⟩⦄ := by
  refine triple_of_after ?_ ?_
  · intro e _ e' h hr
    exact h.puts (ok_of_triple (alert_sends hc a) (.refl _ _) hr)
  · intro e f e' h hr
    exact error_of_triple (alert_sends hc a) (.refl _ _) hr

theorem send_ledger (hc : p.crypto.Lawful) (data : List UInt8) :
    ⦃fun e => ⌜p.Ledger e⌝⦄ send p.crypto data
    ⦃post⟨fun _ e => ⌜p.Ledger e⌝, fun f _ => ⌜f = .panic⌝⟩⦄ := by
  have hsends (e : Exchange) := @sealData_sends p.crypto e hc APPLICATION_DATA (by decide) (by decide) data
  refine triple_of_after ?_ ?_
  · intro e _ e' h hr
    exact h.puts (ok_of_triple (hsends e) (.refl _ _) hr)
  · intro e f e' h hr
    exact error_of_triple (hsends e) (.refl _ _) hr

theorem kept_ledger (hc : p.crypto.Lawful) (now : ℤ) :
    Kept (p.config now) (fun e => p.Inv e ∧ p.Ledger e) fun e => p.Delivered e ∧ p.Ledger e where
  stop h := ⟨h.1.2, h.2⟩
  message hwhole := by
    refine triple_of_after ?_ ?_
    · intro e _ e' h hr
      have hinv := ok_of_triple ((kept p now).message hwhole) h.1 hr
      exact ⟨hinv, ok_of_triple (message_ledger hc hwhole) h hr⟩
    · intro e f e' h hr hf
      have hdelivered := error_of_triple ((kept p now).message hwhole) h.1 hr hf
      exact ⟨hdelivered, error_of_triple (message_ledger hc hwhole) h hr hf⟩
  buffer h := ⟨(kept p now).buffer h.1, h.2.of_eq rfl rfl rfl rfl⟩
  count h hd hnonce := ⟨(kept p now).count h.1 hd hnonce, h.2.of_eq rfl rfl rfl rfl⟩
  deliver h hs hd hnonce hopen hunpad :=
    ⟨(kept p now).deliver h.1 hs hd hnonce hopen hunpad, h.2.of_eq rfl rfl rfl rfl⟩
  closed h := ⟨(kept p now).closed h.1, h.2.of_eq rfl rfl rfl rfl⟩
  alert := by
    intro a
    refine triple_of_after ?_ ?_
    · intro e _ e' h hr
      exact ⟨ok_of_triple (alert_inv a) h.1 hr, ok_of_triple (alert_ledger hc a) h.2 hr⟩
    · intro e f e' h hr
      exact error_of_triple (alert_inv a) h.1 hr

theorem ledger_exchange (p : Start) : p.Ledger p.exchange := by
  refine ⟨?_, rfl, fun app _ => .nil⟩
  simp [exchange, client, Frame.bytes]

theorem ledger_of_reachable (hc : p.crypto.Lawful) (h : Reachable p.step Libre p.exchange e) :
    p.Ledger e := by
  refine (kept_of_reachable (kept_ledger hc) ?_ ⟨inv_exchange p, ledger_exchange p⟩ h).2
  intro data
  refine triple_of_after ?_ ?_
  · intro e _ e' h hr
    exact ⟨ok_of_triple (send_inv data) h.1 hr, ok_of_triple (send_ledger hc data) h.2 hr⟩
  · intro e f e' h hr
    exact error_of_triple (send_inv data) h.1 hr

/-- However a session runs, no two of its sealed records share a key generation and a nonce, and
the peer that has the client's two traffic secrets opens every record as it was sealed. Each
write key but the last announced the next one, in exactly one message that is the last record
under it: a `KeyUpdate`, or the one `Finished` before the application keys. -/
theorem session_nonces (p : Start) (hc : p.crypto.Lawful) (e : Exchange)
    (h : Reachable p.step Libre p.exchange e) :
    ((sealedOf e.frames).map fun r => (r.generation, r.nonce)).Nodup ∧
    e.out = e.frames.flatMap Frame.bytes ∧
    Reads p.crypto (p.applicationSecret e.accepted) (p.peer e.accepted) (sealedOf e.frames) e.peer ∧
    (∀ g, 1 ≤ g → g < e.generation → ∃ before r, ofGeneration g (sealedOf e.frames) = before ++ [r] ∧
      (r.opening.IsKeyUpdate ∨ r.opening.IsFinished) ∧ ∀ r' ∈ before, ¬r'.opening.Announces) ∧
    (∀ r ∈ ofGeneration e.generation (sealedOf e.frames), ¬r.opening.Announces) ∧
    finishes e.frames = if 5 ≤ e.accepted.length then 1 else 0 := by
  have hledger := ledger_of_reachable hc h
  have hreads := hledger.reads (p.applicationSecret e.accepted) fun _ => rfl
  have hstart : (p.peer e.accepted).generation ≤ 1 ∧
      ∀ d, (p.peer e.accepted).keys = some d → d.iv.length = 12 := by
    unfold peer
    cases e.accepted with
    | nil => exact ⟨Nat.zero_le 1, nofun⟩
    | cons sh rest =>
      refine ⟨le_rfl, fun d hd => ?_⟩
      obtain rfl := Option.some.inj hd
      exact length_iv hc _
  obtain ⟨hends, hlast⟩ := hreads.announced
  exact ⟨hreads.nodup hc hstart.2, hledger.out, hreads, fun g hg => hends g (hstart.1.trans hg), hlast,
    hledger.finishes⟩

end Start

namespace Hub

theorem lawful_crypto : start.crypto.Lawful := ⟨fun _ _ => length_bigBytes 32 _, fun _ _ _ _ => rfl⟩

/-- The session sends, is asked for a `KeyUpdate`, sends again and ends. -/
def ops : List Op :=
  [.receive Renewed.newYear wire, .send (ascii "a"),
    .receive Renewed.newYear (sealedRecord (handshakeMessage KEY_UPDATE [1]) HANDSHAKE),
    .send (ascii "b"), .alert .closeNotify]

theorem ops_run : (run start.step start.exchange ops).isSome := by decide +kernel

/-- The session after `ops`. -/
def ended : Exchange := (run start.step start.exchange ops).get ops_run

end Hub

section

open Chatlink.Net.Hub

theorem session_nonces_hub :
    (sealedOf ended.frames).map (fun r => (r.generation, r.kind)) =
      [(1, HANDSHAKE), (2, APPLICATION_DATA), (2, HANDSHAKE), (3, APPLICATION_DATA), (3, ALERT)] ∧
    ((sealedOf ended.frames).map fun r => (r.generation, r.nonce)).Nodup := by
  refine ⟨by decide +kernel, ?_⟩
  exact (Start.session_nonces start lawful_crypto ended (reachable_run ops ops_run)).1

/-- The keys of the handshake give way to those of the application without a `KeyUpdate`. -/
theorem arrived_without_keyUpdate :
    Reachable start.step Libre start.exchange arrived ∧
    ¬∀ g, 1 ≤ g → g < arrived.generation → ∃ r,
      (sealedOf arrived.frames).filter (fun r => r.generation = g ∧ r.opening.IsKeyUpdate) = [r] := by
  refine ⟨reachable_arrived, fun h => ?_⟩
  have hnone : (sealedOf arrived.frames).filter
      (fun r => r.generation = 1 ∧ r.opening.IsKeyUpdate) = [] := by decide +kernel
  obtain ⟨r, hr⟩ := h 1 le_rfl (by decide +kernel)
  exact List.cons_ne_nil r [] (hr.symm.trans hnone)

end

end Chatlink.Net
