import Chatlink.Net.Handshake

/-!
# Handshake messages one after the other

What a handshake message does to a session does not depend on how many records its keys have
opened, nor on the bytes buffered behind it: only a message that changes the read keys touches
them, and it replaces them.
-/
namespace Chatlink.Net

open Fallible

variable {cfg : Config} {c : Crypto} {e e₁ e₂ : Exchange} {α : Type}

/-! ### Running the steps of a handler -/

theorem after_session (k : Session → Tls α) : after (Tls.session >>= k) e = after (k e.session) e := rfl

theorem after_modifySession (f : Session → Session) (k : Unit → Tls α) :
    after (Tls.modifySession f >>= k) e = after (k ()) { e with session := f e.session } := rfl

/-! ### The read keys -/

/-- The same session with other read keys. -/
def Exchange.withRead (e : Exchange) (read : Option Direction) : Exchange :=
  { e with session := { e.session with read } }

@[simp] theorem withRead_session_write (rd : Option Direction) :
    (e.withRead rd).session.write = e.session.write := rfl

/-- Keys that differ in their count at most. -/
def SameKeys (rd rd' : Option Direction) : Prop :=
  rd.map (fun d => { d with seq := 0 }) = rd'.map fun d => { d with seq := 0 }

theorem SameKeys.refl (rd : Option Direction) : SameKeys rd rd := rfl

/-- A computation that neither reads nor writes the read keys. -/
def Blind (x : Tls α) : Prop :=
  ∀ (e : Exchange) (rd : Option Direction),
    after x (e.withRead rd) = ((after x e).1, (after x e).2.withRead rd)

theorem Blind.bind {β : Type} {x : Tls α} {k : α → Tls β} (hx : Blind x) (hk : ∀ a, Blind (k a)) :
    Blind (x >>= k) := by
  intro e rd
  have hrun := hx e rd
  cases hr : after x e with
  | mk r e' =>
    rw [hr] at hrun
    cases r with
    | error f => rw [after_bind_error hr, after_bind_error hrun]
    | ok a =>
      rw [after_bind_ok hr, after_bind_ok hrun]
      exact hk a e' rd

theorem Blind.pure (a : α) : Blind (Pure.pure a) := fun _ _ => rfl

theorem Blind.throw (f : Fault) : Blind (MonadExcept.throw f : Tls α) := fun _ _ => rfl

theorem Blind.put (frame : Frame) : Blind (Tls.put frame) := fun _ _ => rfl

theorem Blind.install (d : Direction) : Blind (Tls.install d) := fun _ _ => rfl

theorem Blind.modifySession {f : Session → Session} (hf : ∀ s rd, f { s with read := rd } =
    { f s with read := rd }) : Blind (Tls.modifySession f) := by
  intro e rd
  have hs : f (e.withRead rd).session = { f e.session with read := rd } := hf e.session rd
  change (Except.ok (), ({ e.withRead rd with session := f (e.withRead rd).session } : Exchange)) = _
  rw [hs]
  rfl

theorem Blind.lift (x : Except TlsError α) : Blind (Tls.lift x) := by
  intro e rd
  cases x <;> rfl

theorem Blind.get {k : Exchange → Tls α} (hk : ∀ e, Blind (k e))
    (hread : ∀ e rd, k (e.withRead rd) = k e) : Blind (MonadState.get >>= k) := by
  intro e rd
  have hrun := hk e e rd
  rw [← hread e rd] at hrun
  calc after (MonadState.get >>= k) (e.withRead rd)
      = after (k (e.withRead rd)) (e.withRead rd) := rfl
    _ = _ := by
      rw [hrun, hread]
      rfl

theorem Blind.session {k : Session → Tls α} (hk : ∀ s, Blind (k s))
    (hread : ∀ s rd, k { s with read := rd } = k s) : Blind (Tls.session >>= k) := by
  intro e rd
  have hrun := hk e.session e rd
  rw [← hread e.session rd] at hrun
  calc after (Tls.session >>= k) (e.withRead rd)
      = after (k { e.session with read := rd }) (e.withRead rd) := rfl
    _ = _ := by
      rw [hrun, hread]
      rfl

theorem blind_sealPiece (kind : UInt8) (piece : List UInt8) : Blind (sealPiece c kind piece) := by
  refine .get (fun e => ?_) fun e rd => rfl
  cases e.session.write with
  | none => exact .throw _
  | some d =>
    dsimp only
    cases d.nonce with
    | none => exact .throw _
    | some nd => exact .bind (.modifySession fun _ _ => rfl) fun _ => .put _

theorem blind_updateWrite : Blind (updateWrite c) := by
  refine .bind (blind_sealPiece _ _) fun _ => .get (fun e => ?_) fun e rd => rfl
  cases e.session.write with
  | none => exact .throw _
  | some d => exact .install _

theorem blind_sealPieces (kind : UInt8) (ps : List (List UInt8)) : Blind (sealPieces c kind ps) := by
  induction ps with
  | nil => exact .pure _
  | cons piece rest ih =>
    refine .session (fun s => ?_) fun s rd => rfl
    dsimp only
    split_ifs
    · exact .bind blind_updateWrite fun _ => .bind (blind_sealPiece _ _) fun _ => ih
    · exact .bind (blind_sealPiece _ _) fun _ => ih

/-! ### One message -/

variable {state : State} {kind : UInt8} {body whole : List UInt8} {last : Bool} {rd : Option Direction}

theorem message_ok_iff : after (message cfg whole last) e = (.ok (), e₁) ↔
    (rekeys e.session.state (whole.headD 0) = true → last = true) ∧
    ∃ e₂, after (handle cfg e.session.state (whole.headD 0) (whole.drop 4) whole) e = (.ok (), e₂) ∧
      e₁ = { e₂ with accepted := e₂.accepted ++ [⟨cfg.now, whole⟩] } := by
  have hunfold : after (message cfg whole last) e =
      if rekeys e.session.state (whole.headD 0) && !last then (.error (.stop (.locally .unexpectedMessage)), e)
      else after (do
        handle cfg e.session.state (whole.headD 0) (whole.drop 4) whole
        modify fun e => { e with accepted := e.accepted ++ [⟨cfg.now, whole⟩] }) e := by
    unfold message
    rw [after_session]
    split_ifs <;> rfl
  rw [hunfold]
  generalize hkind : whole.headD 0 = kind
  split_ifs with hlast
  · simp only [Bool.and_eq_true, Bool.not_eq_true'] at hlast
    simp [hlast]
  · have hallowed : rekeys e.session.state kind = true → last = true := by
      intro hr
      simpa [hr] using hlast
    cases hr : after (handle cfg e.session.state kind (whole.drop 4) whole) e with
    | mk r e₂ =>
      cases r with
      | error f =>
        rw [after_bind_error hr]
        simp
      | ok u =>
        rw [after_bind_ok hr]
        constructor
        · intro h
          exact ⟨hallowed, e₂, rfl, (Prod.mk.inj h).2.symm⟩
        · rintro ⟨-, e₂', heq, rfl⟩
          obtain ⟨-, rfl⟩ := Prod.mk.inj heq
          rfl

theorem rekeys_eq_false (h : rekeys state kind = false) :
    ¬(state = .serverHello ∧ kind = SERVER_HELLO) ∧ ¬(state = .finished ∧ kind = FINISHED) ∧
      ¬(state = .connected ∧ kind = KEY_UPDATE) := by
  simp only [rekeys, Bool.or_eq_false_iff, Bool.and_eq_false_iff, decide_eq_false_iff_not] at h
  tauto

/-- A message that changes no keys is blind to the read keys. -/
theorem blind_handle (h : rekeys state kind = false) : Blind (handle cfg state kind body whole) := by
  obtain ⟨hhello, hfinished, hupdate⟩ := rekeys_eq_false h
  have hfail (a : Alert) : Blind (Tls.fail a : Tls Unit) := .throw _
  cases state with
  | serverHello =>
    rw [handle, if_neg fun hk => hhello ⟨rfl, hk⟩]
    exact hfail _
  | encryptedExtensions =>
    simp only [handle]
    split_ifs
    · refine .bind (.lift _) fun _ => ?_
      exact .modifySession fun _ _ => rfl
    · exact hfail _
  | certificate =>
    simp only [handle]
    split_ifs
    · refine .session (fun s => ?_) fun s rd => rfl
      refine .bind (.lift _) fun chain => .bind (.lift _) fun _ => ?_
      exact .modifySession fun _ _ => rfl
    · exact hfail _
  | certificateVerify =>
    simp only [handle]
    split_ifs
    · refine .session (fun s => ?_) fun s rd => rfl
      refine .bind (.lift _) fun signed => ?_
      obtain ⟨scheme, sig⟩ := signed
      refine .bind (.lift _) fun good => ?_
      split_ifs
      · exact .modifySession fun _ _ => rfl
      · exact hfail _
    · exact hfail _
  | finished =>
    rw [handle, if_neg fun hk => hfinished ⟨rfl, hk⟩]
    exact hfail _
  | connected =>
    simp only [handle]
    split_ifs with ht hu
    · exact .pure _
    · exact absurd ⟨rfl, hu⟩ hupdate
    · exact hfail _
  | closed => exact hfail _

theorem Blind.read_eq {x : Tls α} {r : Except Fault α} (h : Blind x) (hrun : after x e = (r, e₁)) :
    e₁.session.read = e.session.read := by
  have hsame := h e e.session.read
  have hrun' : after x (e.withRead e.session.read) = (r, e₁) := hrun
  rw [hrun, hrun'] at hsame
  exact congrArg (fun p => p.2.session.read) hsame

/-- A computation that replaces the read keys, whatever they have counted. -/
def Renews (x : Tls Unit) : Prop :=
  ∀ (e e₁ : Exchange) (rd : Option Direction), SameKeys rd e.session.read → after x e = (.ok (), e₁) →
    after x (e.withRead rd) = (.ok (), e₁) ∧ e₁.session.read.isSome

theorem Renews.throw (f : Fault) : Renews (MonadExcept.throw f) := fun _ _ _ _ h => nomatch h

theorem Renews.after_blind {x : Tls α} {k : α → Tls Unit} (hx : Blind x) (hk : ∀ a, Renews (k a)) :
    Renews (x >>= k) := by
  intro e e₁ rd hrd hrun
  have hwith := hx e rd
  cases hr : after x e with
  | mk r e' =>
    rw [hr] at hwith
    cases r with
    | error f =>
      rw [after_bind_error hr] at hrun
      cases hrun
    | ok a =>
      rw [after_bind_ok hr] at hrun
      rw [after_bind_ok hwith]
      exact hk a e' e₁ rd ((hx.read_eq hr).symm ▸ hrd) hrun

theorem Renews.session {k : Session → Tls Unit} (hk : ∀ s, Renews (k s))
    (hread : ∀ s rd, k { s with read := rd } = k s) : Renews (Tls.session >>= k) := by
  intro e e₁ rd hrd hrun
  have hrun' : after (k e.session) e = (.ok (), e₁) := hrun
  have hsame := hk e.session e e₁ rd hrd hrun'
  rw [← hread e.session rd] at hsame
  exact hsame

theorem Renews.modifySession {f : Session → Session} (hf : ∀ s rd, f { s with read := rd } = f s)
    (hsome : ∀ s, (f s).read.isSome) : Renews (Tls.modifySession f) := by
  intro e e₁ rd _ hrun
  obtain ⟨-, rfl⟩ := Prod.mk.inj hrun
  refine ⟨?_, hsome e.session⟩
  have hs : f (e.withRead rd).session = f e.session := hf e.session rd
  change (Except.ok (), ({ e.withRead rd with session := f (e.withRead rd).session } : Exchange)) = _
  rw [hs]
  rfl

theorem Renews.before_blind {x : Tls Unit} {k : Unit → Tls Unit} (hx : Renews x) (hk : ∀ u, Blind (k u)) :
    Renews (x >>= k) := by
  intro e e₁ rd hrd hrun
  cases hr : after x e with
  | mk r e' =>
    cases r with
    | error f =>
      rw [after_bind_error hr] at hrun
      cases hrun
    | ok u =>
      rw [after_bind_ok hr] at hrun
      obtain ⟨hwith, hsome⟩ := hx e e' rd hrd hr
      rw [after_bind_ok hwith]
      exact ⟨hrun, ((hk u).read_eq hrun).symm ▸ hsome⟩

theorem renews_serverHello : Renews (serverHello cfg body whole) := by
  refine .session (fun s => ?_) fun s rd => rfl
  refine .after_blind (.lift _) fun share => .after_blind ?_ fun _ => ?_
  · exact .modifySession fun _ _ => rfl
  · split_ifs
    · exact .throw _
    · refine .before_blind ?_ fun _ => .install _
      exact .modifySession (fun _ _ => rfl) fun _ => rfl

theorem renews_finished : Renews (finished cfg body whole) := by
  refine .session (fun s => ?_) fun s rd => rfl
  split_ifs
  · exact .throw _
  · refine .after_blind ?_ fun _ => .after_blind (.put _) fun _ => ?_
    · exact .modifySession fun _ _ => rfl
    · refine .after_blind (blind_sealPieces _ _) fun _ => .after_blind (.install _) fun _ => ?_
      exact .modifySession (fun _ _ => rfl) fun _ => rfl

/-- The next generation of keys does not depend on what the last one has counted. -/
theorem update_eq_of_sameKeys {d d' : Direction} (h : SameKeys (some d) (some d')) :
    d.update c = d'.update c := by
  have hsecret := congrArg (fun d : Option Direction => d.map Direction.secret) h
  exact congrArg (fun s => Direction.new c (expandLabel c s "traffic upd" [] 32))
    (Option.some.inj hsecret)

/-- The part of a `KeyUpdate` that is about the read keys. -/
def nextRead (c : Crypto) : Tls Unit :=
  Tls.session >>= fun s => match s.read with
    | none => throw .panic
    | some d => Tls.modifySession fun s => { s with read := some (d.update c) }

theorem renews_nextRead : Renews (nextRead c) := by
  intro e e₁ rd hrd hrun
  cases hread : e.session.read with
  | none =>
    have hpanic : after (nextRead c) e = (.error .panic, e) := by
      unfold nextRead
      rw [after_session, hread]
      rfl
    cases hpanic.symm.trans hrun
  | some d =>
    have hnew : after (nextRead c) e = (.ok (), e.withRead (some (d.update c))) := by
      unfold nextRead
      rw [after_session, hread]
      rfl
    obtain ⟨-, rfl⟩ := Prod.mk.inj (hnew.symm.trans hrun)
    rw [hread] at hrd
    cases rd with
    | none => cases hrd
    | some d' =>
      rw [← update_eq_of_sameKeys hrd]
      exact ⟨rfl, rfl⟩

theorem renews_keyUpdate : Renews (keyUpdate cfg body) := by
  unfold keyUpdate
  split_ifs with hbody hrequest
  · have hsplit := (@renews_nextRead cfg.crypto).before_blind fun _ => @blind_updateWrite cfg.crypto
    unfold nextRead at hsplit
    rw [bind_assoc] at hsplit
    convert hsplit using 3
    rename_i s
    cases s.read <;> rfl
  · have hsplit := (@renews_nextRead cfg.crypto).before_blind fun u => Blind.pure u
    unfold nextRead at hsplit
    rw [bind_assoc] at hsplit
    convert hsplit using 3
    rename_i s
    cases s.read <;> rfl
  · exact .throw _

/-- A message that changes keys gives new ones. -/
theorem renews_handle (h : rekeys state kind = true) : Renews (handle cfg state kind body whole) := by
  simp only [rekeys, Bool.or_eq_true, Bool.and_eq_true, decide_eq_true_eq] at h
  rcases h with (⟨rfl, rfl⟩ | ⟨rfl, rfl⟩) | ⟨rfl, rfl⟩
  · exact renews_finished
  · exact renews_serverHello
  · exact renews_keyUpdate

/-- No handler touches the handshake buffer, and none that accepts closes the session. -/
theorem handle_buffer (hrun : after (handle cfg e.session.state kind body whole) e = (.ok (), e₁)) :
    e₁.session.handshake = e.session.handshake ∧ e₁.session.state ≠ .closed := by
  unfold handle at hrun
  cases hs : e.session.state with
  | serverHello =>
    rw [hs] at hrun
    dsimp only at hrun
    split_ifs at hrun
    · obtain ⟨_, _, _, _, _, rfl⟩ := ok_of_triple serverHello_spec rfl hrun
      exact ⟨rfl, nofun⟩
    · cases hrun
  | encryptedExtensions =>
    rw [hs] at hrun
    dsimp only at hrun
    split_ifs at hrun
    · obtain ⟨_, rfl⟩ := ok_of_triple encryptedExtensions_spec rfl hrun
      exact ⟨rfl, nofun⟩
    · cases hrun
  | certificate =>
    rw [hs] at hrun
    dsimp only at hrun
    split_ifs at hrun
    · obtain ⟨_, _, _, rfl⟩ := ok_of_triple certificate_spec rfl hrun
      exact ⟨rfl, nofun⟩
    · cases hrun
  | certificateVerify =>
    rw [hs] at hrun
    dsimp only at hrun
    split_ifs at hrun
    · obtain ⟨_, _, _, _, rfl⟩ := ok_of_triple certificateVerify_spec rfl hrun
      exact ⟨rfl, nofun⟩
    · cases hrun
  | finished =>
    rw [hs] at hrun
    dsimp only at hrun
    split_ifs at hrun
    · obtain ⟨_, _, _, _, _, rfl⟩ := ok_of_triple finished_spec rfl hrun
      exact ⟨rfl, nofun⟩
    · cases hrun
  | connected =>
    rw [hs] at hrun
    dsimp only at hrun
    split_ifs at hrun
    · obtain ⟨-, rfl⟩ := Prod.mk.inj hrun
      exact ⟨rfl, hs ▸ nofun⟩
    · obtain ⟨_, _, _, _, _, _, rfl⟩ := ok_of_triple keyUpdate_spec rfl hrun
      exact ⟨rfl, hs ▸ nofun⟩
    · cases hrun
  | closed =>
    rw [hs] at hrun
    cases hrun

/-- One message, with the read keys counted differently. -/
theorem message_withRead (hrun : after (message cfg whole last) e = (.ok (), e₁))
    (hrd : SameKeys rd e.session.read) :
    after (message cfg whole last) (e.withRead rd) = (.ok (),
      if rekeys e.session.state (whole.headD 0) then e₁ else e₁.withRead rd) := by
  obtain ⟨hlast, e₂, hhandle, rfl⟩ := message_ok_iff.mp hrun
  refine message_ok_iff.mpr ⟨hlast, ?_⟩
  by_cases hr : rekeys e.session.state (whole.headD 0)
  · rw [if_pos hr]
    exact ⟨e₂, (renews_handle hr e e₂ rd hrd hhandle).1, rfl⟩
  · rw [if_neg hr]
    have hblind : Blind (handle cfg e.session.state (whole.headD 0) (whole.drop 4) whole) :=
      blind_handle (Bool.eq_false_iff.mpr hr)
    have hwith := hblind e rd
    rw [hhandle] at hwith
    exact ⟨e₂.withRead rd, hwith, rfl⟩

/-- The read keys and the buffer after one message. -/
theorem message_read (hrun : after (message cfg whole last) e = (.ok (), e₁)) :
    (e₁.session.handshake = e.session.handshake ∧ e₁.session.state ≠ .closed) ∧
      (rekeys e.session.state (whole.headD 0) = false → e₁.session.read = e.session.read) ∧
      (rekeys e.session.state (whole.headD 0) = true → e₁.session.read.isSome) := by
  obtain ⟨-, e₂, hhandle, rfl⟩ := message_ok_iff.mp hrun
  have hkept := handle_buffer hhandle
  refine ⟨hkept, fun hr => ?_, fun hr => ?_⟩
  · have hblind : Blind (handle cfg e.session.state (whole.headD 0) (whole.drop 4) whole) :=
      blind_handle hr
    have hread : e₂.session.read = e.session.read := hblind.read_eq hhandle
    exact hread
  · exact (renews_handle hr e e₂ e.session.read (.refl _) hhandle).2

/-- That nothing follows matters to the messages that change keys alone. -/
theorem message_last (hr : rekeys e.session.state (whole.headD 0) = false) (last' : Bool)
    (hrun : after (message cfg whole last) e = (.ok (), e₁)) :
    after (message cfg whole last') e = (.ok (), e₁) := by
  obtain ⟨-, hhandle⟩ := message_ok_iff.mp hrun
  refine message_ok_iff.mpr ⟨fun hr' => ?_, hhandle⟩
  rw [hr] at hr'
  cases hr'

/-! ### Messages in a row -/

/-- The messages are accepted one after the other; the flag says that the last one changes keys,
and no other may. -/
inductive Turns (cfg : Config) : Exchange → List (List UInt8) → Exchange → Bool → Prop
  | nil {e : Exchange} : Turns cfg e [] e false
  | keep {e e₁ e₂ : Exchange} {m : List UInt8} {ms : List (List UInt8)} {changed : Bool} :
      rekeys e.session.state (m.headD 0) = false → after (message cfg m true) e = (.ok (), e₁) →
      Turns cfg e₁ ms e₂ changed → Turns cfg e (m :: ms) e₂ changed
  | turn {e e₁ : Exchange} {m : List UInt8} :
      rekeys e.session.state (m.headD 0) = true → after (message cfg m true) e = (.ok (), e₁) →
      Turns cfg e [m] e₁ true

variable {ms ns : List (List UInt8)} {changed : Bool}

theorem Turns.unique {changed' : Bool} (h : Turns cfg e ms e₁ changed) (h' : Turns cfg e ms e₂ changed') :
    e₁ = e₂ ∧ changed = changed' := by
  induction h with
  | nil =>
    cases h'
    exact ⟨rfl, rfl⟩
  | keep hr hrun _ ih =>
    cases h' with
    | keep _ hrun' hrest =>
      obtain ⟨-, rfl⟩ := Prod.mk.inj (hrun.symm.trans hrun')
      exact ih hrest
    | turn hr' _ => exact absurd (hr.symm.trans hr') nofun
  | turn hr hrun =>
    cases h' with
    | keep hr' _ _ => exact absurd (hr'.symm.trans hr) nofun
    | turn _ hrun' => exact ⟨(Prod.mk.inj (hrun.symm.trans hrun')).2, rfl⟩

/-- Only from unchanged keys do the messages go on. -/
theorem turns_append : Turns cfg e (ms ++ ns) e₂ changed ↔
    (∃ e₁, Turns cfg e ms e₁ false ∧ Turns cfg e₁ ns e₂ changed) ∨
      (ns = [] ∧ changed = true ∧ Turns cfg e ms e₂ true) := by
  induction ms generalizing e with
  | nil =>
    constructor
    · intro h
      exact .inl ⟨e, .nil, h⟩
    · rintro (⟨e₁, h, h'⟩ | ⟨-, -, h⟩)
      · cases h
        exact h'
      · cases h
  | cons m ms ih =>
    constructor
    · intro h
      cases hlist : ms ++ ns with
      | nil =>
        obtain ⟨rfl, rfl⟩ := List.append_eq_nil_iff.mp hlist
        cases changed with
        | false => exact .inl ⟨e₂, by simpa using h, .nil⟩
        | true => exact .inr ⟨rfl, rfl, by simpa using h⟩
      | cons m' rest =>
        rw [List.cons_append, hlist] at h
        cases h with
        | keep hr hrun hrest =>
          rw [← hlist] at hrest
          rcases ih.mp hrest with ⟨e₁, h₁, h₂⟩ | ⟨hns, hc, h₁⟩
          · exact .inl ⟨e₁, .keep hr hrun h₁, h₂⟩
          · exact .inr ⟨hns, hc, .keep hr hrun h₁⟩
    · rintro (⟨e₁, h, h'⟩ | ⟨rfl, rfl, h⟩)
      · cases h with
        | keep hr hrun hrest => exact .keep hr hrun (ih.mpr (.inl ⟨e₁, hrest, h'⟩))
      · rwa [List.append_nil]

/-- The same messages, with the read keys counted differently. -/
theorem Turns.withRead (h : Turns cfg e ms e₁ changed) (hrd : SameKeys rd e.session.read) :
    Turns cfg (e.withRead rd) ms (if changed then e₁ else e₁.withRead rd) changed ∧
      (changed = false → e₁.session.read = e.session.read) ∧
      (changed = true → e₁.session.read.isSome) ∧ e₁.session.handshake = e.session.handshake := by
  induction h with
  | nil => exact ⟨.nil, fun _ => rfl, nofun, rfl⟩
  | keep hr hrun _ ih =>
    obtain ⟨⟨hbuffer, -⟩, hread, -⟩ := message_read hrun
    have hwith := message_withRead hrun hrd
    rw [if_neg (by rw [hr]; nofun)] at hwith
    obtain ⟨hrest, hsame, hsome, hbuffer'⟩ := ih (by rwa [hread hr])
    exact ⟨.keep hr hwith hrest, fun hc => (hsame hc).trans (hread hr), hsome, hbuffer'.trans hbuffer⟩
  | turn hr hrun =>
    obtain ⟨⟨hbuffer, -⟩, -, hsome⟩ := message_read hrun
    have hwith := message_withRead hrun hrd
    rw [if_pos hr] at hwith
    exact ⟨.turn hr hwith, nofun, fun _ => hsome hr, hbuffer⟩

/-- Messages are accepted by a session that is not closed, and it stays so. -/
theorem Turns.stays_open (h : Turns cfg e ms e₁ changed) (hopen : e.session.state ≠ .closed) :
    e₁.session.state ≠ .closed := by
  induction h with
  | nil => exact hopen
  | keep hr hrun _ ih => exact ih (message_read hrun).1.2
  | turn hr hrun => exact (message_read hrun).1.2

/-- A session that is closed accepts none. -/
theorem Turns.eq_nil_of_closed (h : Turns cfg e ms e₁ changed) (hclosed : e.session.state = .closed) :
    ms = [] := by
  have hnone (m : List UInt8) (e' : Exchange) : after (message cfg m true) e ≠ (.ok (), e') := by
    intro hrun
    obtain ⟨-, e₂, hhandle, -⟩ := message_ok_iff.mp hrun
    rw [hclosed] at hhandle
    cases hhandle
  cases h with
  | nil => rfl
  | keep hr hrun hrest => exact absurd hrun (hnone _ _)
  | turn hr hrun => exact absurd hrun (hnone _ _)

/-- What the messages do from keys counted differently. -/
theorem turns_withRead_iff (hrd : SameKeys rd e.session.read) : Turns cfg (e.withRead rd) ms e₂ changed ↔
    ∃ e₁, Turns cfg e ms e₁ changed ∧ e₂ = if changed then e₁ else e₁.withRead rd := by
  constructor
  · intro h
    have hback : SameKeys e.session.read (e.withRead rd).session.read := hrd.symm
    obtain ⟨hturns, hread, -⟩ := h.withRead hback
    refine ⟨_, hturns, ?_⟩
    cases changed with
    | true => rfl
    | false =>
      have hsame : e₂.session.read = rd := hread rfl
      change e₂ = e₂.withRead rd
      rw [← hsame]
      rfl
  · rintro ⟨e₁, h, rfl⟩
    exact (h.withRead hrd).1

end Chatlink.Net
