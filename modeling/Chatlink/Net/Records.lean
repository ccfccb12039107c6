import Chatlink.Net.Cuts
import Chatlink.Net.Turns

/-!
# How handshake messages are cut into records

A handshake stream sent under one read key is cut into records, several messages in one or one
over many. The session takes the whole messages of its buffer after every record; what is left
over must not be too long, and that check counts the header of a message, where the one on the
message's own length does not.
-/
namespace Chatlink.Net

open Fallible

variable {cfg : Config} {c : Crypto} {e e₁ e₂ : Exchange} {s x y : List UInt8}

/-! ### The messages of a stream -/

/-- The stream begins with no whole message. -/
def Partial (s : List UInt8) : Prop := s.length < 4 ∨ s.length < 4 + bodyLength s

instance (s : List UInt8) : Decidable (Partial s) := inferInstanceAs (Decidable (_ ∨ _))

/-- The whole messages at the start of a stream and what is left of it. -/
def split : ℕ → List UInt8 → List (List UInt8) × List UInt8
  | 0, s => ([], s)
  | fuel + 1, s =>
    if Partial s then ([], s)
    else
      let r := split fuel (s.drop (4 + bodyLength s))
      (s.take (4 + bodyLength s) :: r.1, r.2)

def wholes (s : List UInt8) : List (List UInt8) := (split s.length s).1

def leftover (s : List UInt8) : List UInt8 := (split s.length s).2

theorem split_fuel {n m : ℕ} (hn : s.length ≤ n) (hm : s.length ≤ m) : split n s = split m s := by
  induction n generalizing m s with
  | zero =>
    obtain rfl : s = [] := List.length_eq_zero_iff.mp (by omega)
    cases m with
    | zero => rfl
    | succ m => rfl
  | succ n ih =>
    cases m with
    | zero =>
      obtain rfl : s = [] := List.length_eq_zero_iff.mp (by omega)
      rfl
    | succ m =>
      rw [split, split]
      split_ifs with hp
      · rfl
      · have hlen : (s.drop (4 + bodyLength s)).length ≤ s.length - 4 := by
          rw [List.length_drop]
          omega
        rw [ih (m := m) (by omega) (by omega)]

theorem split_of_cut (h : Partial s) : wholes s = [] ∧ leftover s = s := by
  unfold wholes leftover
  cases hs : s.length with
  | zero => exact ⟨rfl, rfl⟩
  | succ n =>
    rw [split, if_pos h]
    exact ⟨rfl, rfl⟩

/-- A stream that begins with a whole message. -/
theorem split_of_whole (h : ¬Partial s) :
    wholes s = s.take (4 + bodyLength s) :: wholes (s.drop (4 + bodyLength s)) ∧
      leftover s = leftover (s.drop (4 + bodyLength s)) := by
  have hpos : s.length ≠ 0 := by
    intro h0
    exact h (.inl (by omega))
  obtain ⟨n, hn⟩ := Nat.exists_eq_succ_of_ne_zero hpos
  have hfuel : split n (s.drop (4 + bodyLength s)) =
      split (s.drop (4 + bodyLength s)).length (s.drop (4 + bodyLength s)) :=
    split_fuel (by rw [List.length_drop]; omega) le_rfl
  unfold wholes leftover
  rw [hn, split, if_neg h, hfuel]
  exact ⟨rfl, rfl⟩

/-- A stream is cut off message by message. -/
theorem stream_induction {P : List UInt8 → Prop} (hpart : ∀ s, Partial s → P s)
    (hwhole : ∀ s, ¬Partial s → P (s.drop (4 + bodyLength s)) → P s) (s : List UInt8) : P s := by
  induction hlen : s.length using Nat.strong_induction_on generalizing s with
  | _ n ih =>
    by_cases h : Partial s
    · exact hpart s h
    · refine hwhole s h (ih _ ?_ _ rfl)
      have hlong : ¬s.length < 4 := fun h4 => h (.inl h4)
      rw [List.length_drop]
      omega

theorem partial_leftover (s : List UInt8) : Partial (leftover s) := by
  induction s using stream_induction with
  | hpart s h => rwa [(split_of_cut h).2]
  | hwhole s h ih => rwa [(split_of_whole h).2]

theorem flatten_wholes (s : List UInt8) : (wholes s).flatten ++ leftover s = s := by
  induction s using stream_induction with
  | hpart s h => rw [(split_of_cut h).1, (split_of_cut h).2, List.flatten_nil, List.nil_append]
  | hwhole s h ih =>
    rw [(split_of_whole h).1, (split_of_whole h).2, List.flatten_cons, List.append_assoc,
      ih, List.take_append_drop]

/-- More bytes do not change a whole message at the start. -/
theorem bodyLength_append (h : ¬s.length < 4) (y : List UInt8) : bodyLength (s ++ y) = bodyLength s := by
  rw [bodyLength, bodyLength, List.drop_append_of_le_length (by omega),
    List.take_append_of_le_length (by rw [List.length_drop]; omega)]

theorem not_partial_append (h : ¬Partial s) (y : List UInt8) : ¬Partial (s ++ y) := by
  obtain ⟨h4, hbody⟩ := not_or.mp h
  refine not_or.mpr ⟨?_, ?_⟩
  · rw [List.length_append]
    omega
  · rw [bodyLength_append h4, List.length_append]
    omega

/-- What is left over of a start of the stream goes on with the rest. -/
theorem split_append (s y : List UInt8) : wholes (s ++ y) = wholes s ++ wholes (leftover s ++ y) ∧
    leftover (s ++ y) = leftover (leftover s ++ y) := by
  induction s using stream_induction with
  | hpart s h =>
    rw [(split_of_cut h).1, (split_of_cut h).2]
    exact ⟨rfl, rfl⟩
  | hwhole s h ih =>
    obtain ⟨h4, hbody⟩ := not_or.mp h
    obtain ⟨hw, hl⟩ := split_of_whole (not_partial_append h y)
    rw [bodyLength_append h4, List.drop_append_of_le_length (by omega)] at hw hl
    rw [List.take_append_of_le_length (by omega)] at hw
    rw [hw, hl, ih.1, ih.2, (split_of_whole h).1, (split_of_whole h).2]
    exact ⟨rfl, rfl⟩

/-! ### The messages of the buffer -/

theorem messages_fuel {n m : ℕ} (hn : s.length ≤ n) (hm : s.length ≤ m) :
    messages cfg n s = messages cfg m s := by
  induction n generalizing m s with
  | zero =>
    obtain rfl : s = [] := List.length_eq_zero_iff.mp (by omega)
    cases m with
    | zero => rfl
    | succ m => rfl
  | succ n ih =>
    cases m with
    | zero =>
      obtain rfl : s = [] := List.length_eq_zero_iff.mp (by omega)
      rfl
    | succ m =>
      rw [messages, messages]
      split_ifs with h4 hlong hpart
      · rfl
      · rfl
      · rfl
      · have hlen : (s.drop (4 + bodyLength s)).length ≤ s.length - 4 := by
          rw [List.length_drop]
          omega
        rw [ih (m := m) (by omega) (by omega)]

/-- No length that is given exceeds the limit. -/
def Small (s : List UInt8) : Prop :=
  (∀ m ∈ wholes s, bodyLength m ≤ MAX_HANDSHAKE) ∧
    (¬(leftover s).length < 4 → bodyLength (leftover s) ≤ MAX_HANDSHAKE)

theorem small_of_cut (h : Partial s) :
    Small s ↔ (¬s.length < 4 → bodyLength s ≤ MAX_HANDSHAKE) := by
  rw [Small, (split_of_cut h).1, (split_of_cut h).2]
  simp

theorem small_of_whole (h : ¬Partial s) :
    Small s ↔ bodyLength s ≤ MAX_HANDSHAKE ∧ Small (s.drop (4 + bodyLength s)) := by
  obtain ⟨h4, hbody⟩ := not_or.mp h
  have hfirst : bodyLength (s.take (4 + bodyLength s)) = bodyLength s := by
    rw [bodyLength, List.drop_take, List.take_take, Nat.min_eq_left (by omega)]
    rfl
  rw [Small, Small, (split_of_whole h).1, (split_of_whole h).2, List.forall_mem_cons, hfirst,
    and_assoc]

theorem messages_of_cut (h : Partial s) : after (messages cfg s.length s) e =
    if s.length < 4 ∨ bodyLength s ≤ MAX_HANDSHAKE then (.ok s, e)
    else (.error (.stop (.locally .unexpectedMessage)), e) := by
  cases hlen : s.length with
  | zero => rfl
  | succ n =>
    rw [messages, hlen]
    rw [Partial, hlen] at h
    by_cases h4 : n + 1 < 4
    · rw [if_pos h4, if_pos (.inl h4)]
      rfl
    · rw [if_neg h4]
      by_cases hlong : MAX_HANDSHAKE < bodyLength s
      · rw [if_pos hlong, if_neg (by omega)]
        rfl
      · rw [if_neg hlong, if_pos (h.resolve_left h4), if_pos (.inr (by omega))]
        rfl

theorem messages_of_whole (h : ¬Partial s) : messages cfg s.length s =
    if MAX_HANDSHAKE < bodyLength s then Tls.fail .unexpectedMessage else (do
      message cfg (s.take (4 + bodyLength s)) (s.drop (4 + bodyLength s) = [])
      messages cfg (s.drop (4 + bodyLength s)).length (s.drop (4 + bodyLength s))) := by
  obtain ⟨h4, hbody⟩ := not_or.mp h
  obtain ⟨n, hn⟩ := Nat.exists_eq_succ_of_ne_zero (show s.length ≠ 0 by omega)
  have hrest : messages cfg n (s.drop (4 + bodyLength s)) =
      messages cfg (s.drop (4 + bodyLength s)).length (s.drop (4 + bodyLength s)) :=
    messages_fuel (by rw [List.length_drop]; omega) le_rfl
  have hlast : decide (s.length = 4 + bodyLength s) = decide (s.drop (4 + bodyLength s) = []) := by
    rw [decide_eq_decide, List.drop_eq_nil_iff]
    omega
  calc messages cfg s.length s
      = messages cfg (n + 1) s := by rw [hn]
    _ = _ := by
      rw [messages, if_neg h4, if_neg hbody, hrest, hlast]

theorem eq_nil_of_split (hw : wholes s = []) (hl : leftover s = []) : s = [] := by
  rw [← flatten_wholes s, hw, hl]
  rfl

/-- The first message of a run, where `rest` follows it in the buffer. -/
theorem turns_cons_iff {m rest : List UInt8} {changed : Bool} :
    (Turns cfg e (m :: wholes rest) e₂ changed ∧ (changed = true → leftover rest = [])) ↔
      ∃ e₁, after (message cfg m (rest = [])) e = (.ok (), e₁) ∧
        ((rekeys e.session.state (m.headD 0) = true ∧ rest = [] ∧ e₁ = e₂ ∧ changed = true) ∨
          (rekeys e.session.state (m.headD 0) = false ∧ Turns cfg e₁ (wholes rest) e₂ changed ∧
            (changed = true → leftover rest = []))) := by
  constructor
  · rintro ⟨hturns, hleft⟩
    generalize hms : wholes rest = ms at hturns
    cases hturns with
    | keep hr hrun hrest => exact ⟨_, message_last hr _ hrun, .inr ⟨hr, hrest, hleft⟩⟩
    | turn hr hrun =>
      obtain rfl := eq_nil_of_split hms (hleft rfl)
      exact ⟨e₂, hrun, .inl ⟨hr, rfl, rfl, rfl⟩⟩
  · rintro ⟨e₁, hrun, ⟨hr, rfl, rfl, rfl⟩ | ⟨hr, hrest, hleft⟩⟩
    · exact ⟨.turn hr hrun, fun _ => rfl⟩
    · exact ⟨.keep hr (message_last hr true hrun) hrest, hleft⟩

/-- The buffer is taken when its messages are accepted one after the other, nothing follows a
change of keys, and no length is too large. -/
theorem messages_ok_iff {t : List UInt8} : after (messages cfg s.length s) e = (.ok t, e₂) ↔
    ∃ changed, Turns cfg e (wholes s) e₂ changed ∧ (changed = true → leftover s = []) ∧ Small s ∧
      t = leftover s := by
  induction s using stream_induction generalizing e with
  | hpart s h =>
    rw [messages_of_cut h, small_of_cut h, (split_of_cut h).1, (split_of_cut h).2]
    split_ifs with hsmall
    · constructor
      · intro heq
        obtain ⟨ht, rfl⟩ := Prod.mk.inj heq
        obtain rfl := Except.ok.inj ht
        exact ⟨false, .nil, nofun, fun h4 => hsmall.resolve_left h4, rfl⟩
      · rintro ⟨changed, hturns, -, -, rfl⟩
        cases hturns
        rfl
    · refine iff_of_false nofun ?_
      rintro ⟨-, -, -, hlen, -⟩
      obtain ⟨h4, hlong⟩ := not_or.mp hsmall
      exact hlong (hlen h4)
  | hwhole s h ih =>
    rw [messages_of_whole h, small_of_whole h, (split_of_whole h).1,
      (split_of_whole h).2]
    generalize s.take (4 + bodyLength s) = m at ih ⊢
    generalize s.drop (4 + bodyLength s) = rest at ih ⊢
    split_ifs with hlong
    · refine iff_of_false nofun ?_
      rintro ⟨-, -, -, ⟨hlen, -⟩, -⟩
      omega
    · have hcons (changed : Bool) := @turns_cons_iff cfg e e₂ m rest changed
      cases hr : after (message cfg m (rest = [])) e with
      | mk r e₁ =>
        cases r with
        | error f =>
          rw [after_bind_error hr]
          refine iff_of_false nofun ?_
          rintro ⟨changed, hturns, hleft, -⟩
          obtain ⟨e₁', hrun, -⟩ := (hcons changed).mp ⟨hturns, hleft⟩
          cases hr.symm.trans hrun
        | ok u =>
          rw [after_bind_ok hr, ih]
          constructor
          · rintro ⟨changed, hturns, hleft, hsmall, ht⟩
            by_cases hk : rekeys e.session.state (m.headD 0) = true
            · have hnil : rest = [] := by simpa using (message_ok_iff.mp hr).1 hk
              subst hnil
              obtain ⟨rfl, rfl⟩ := hturns.unique .nil
              exact ⟨true, .turn hk hr, fun _ => rfl, ⟨by omega, hsmall⟩, ht⟩
            · have hturn := (hcons changed).mpr ⟨e₁, hr, .inr ⟨Bool.eq_false_iff.mpr hk, hturns, hleft⟩⟩
              exact ⟨changed, hturn.1, hturn.2, ⟨by omega, hsmall⟩, ht⟩
          · rintro ⟨changed, hturns, hleft, ⟨-, hsmall⟩, ht⟩
            obtain ⟨e₁', hrun, ⟨-, rfl, rfl, -⟩ | ⟨-, hrest, hleft'⟩⟩ := (hcons changed).mp ⟨hturns, hleft⟩
            · obtain ⟨-, rfl⟩ := Prod.mk.inj (hr.symm.trans hrun)
              exact ⟨false, .nil, nofun, hsmall, ht⟩
            · obtain ⟨-, rfl⟩ := Prod.mk.inj (hr.symm.trans hrun)
              exact ⟨changed, hrest, hleft', hsmall, ht⟩

/-! ### One record -/

/-- Nothing buffered. -/
def Exchange.clear (e : Exchange) : Exchange := { e with session := { e.session with handshake := [] } }

theorem handshakeRecord_ok_iff {piece : List UInt8} : after (handshakeRecord cfg piece) e = (.ok (), e₂) ↔
    ∃ e₁ changed, Turns cfg e.clear (wholes (e.session.handshake ++ piece)) e₁ changed ∧
      (changed = true → leftover (e.session.handshake ++ piece) = []) ∧
      Small (e.session.handshake ++ piece) ∧
      (leftover (e.session.handshake ++ piece)).length ≤ MAX_HANDSHAKE ∧
      e₂ = { e₁ with
        session := { e₁.session with handshake := leftover (e.session.handshake ++ piece) } } := by
  generalize hb : e.session.handshake ++ piece = b
  have hrun : after (handshakeRecord cfg piece) e = after (do
      let rest ← messages cfg b.length b
      if MAX_HANDSHAKE < rest.length then Tls.fail .unexpectedMessage
      else Tls.modifySession fun s => { s with handshake := rest }) e.clear := by
    rw [← hb]
    rfl
  rw [hrun]
  cases hr : after (messages cfg b.length b) e.clear with
  | mk r e₁ =>
    cases r with
    | error f =>
      rw [after_bind_error hr]
      refine iff_of_false nofun ?_
      rintro ⟨e₁', changed, hturns, hleft, hsmall, -⟩
      cases hr.symm.trans (messages_ok_iff.mpr ⟨changed, hturns, hleft, hsmall, rfl⟩)
    | ok t =>
      rw [after_bind_ok hr]
      obtain ⟨changed, hturns, hleft, hsmall, rfl⟩ := messages_ok_iff.mp hr
      split_ifs with hlong
      · refine iff_of_false nofun ?_
        rintro ⟨-, -, -, -, -, hlen, -⟩
        omega
      · constructor
        · intro h
          obtain ⟨-, rfl⟩ := Prod.mk.inj h
          exact ⟨e₁, changed, hturns, hleft, hsmall, by omega, rfl⟩
        · rintro ⟨e₁', changed', hturns', -, -, -, rfl⟩
          obtain ⟨rfl, -⟩ := hturns.unique hturns'
          rfl

/-- The header and the body of the record that carries a piece under the keys `read`. -/
def recordHeader (read : Option Direction) (piece : List UInt8) : List UInt8 :=
  if read.isSome then [APPLICATION_DATA, 3, 3] ++ bigBytes 2 (piece.length + 1 + TAG)
  else [HANDSHAKE, 3, 3] ++ bigBytes 2 piece.length

def recordBody (c : Crypto) (read : Option Direction) (piece : List UInt8) : List UInt8 :=
  match read with
  | none => piece
  | some d => c.gcmSeal d.key (d.nonceAt d.seq) (recordHeader read piece) (piece ++ [HANDSHAKE])

/-- The keys after one more record. -/
def counted (read : Option Direction) : Option Direction := read.map fun d => { d with seq := d.seq + 1 }

theorem headD_recordHeader (read : Option Direction) (piece : List UInt8) :
    (recordHeader read piece).headD 0 = if read.isSome then APPLICATION_DATA else HANDSHAKE := by
  unfold recordHeader
  split_ifs <;> rfl

/-- Once there are read keys every record but a change of cipher is opened with them. -/
theorem record_of_isSome {header body : List UInt8} (hccs : header.headD 0 ≠ CHANGE_CIPHER_SPEC)
    (hread : e.session.read.isSome) :
    after (record cfg header body) e = after (protectedRecord cfg header body) e := by
  unfold record
  rw [after_session, if_neg hccs, if_pos hread]

theorem protectedRecord_of_open {d : Direction} {header body opened content : List UInt8} {kind : UInt8}
    (hread : e.session.read = some d) (hroom : d.seq + 1 < 2 ^ 64)
    (hdata : header.headD 0 = APPLICATION_DATA)
    (hopen : cfg.crypto.gcmOpen d.key (d.nonceAt d.seq) header body = some opened)
    (hunpad : unpad opened = some (content, kind)) (hkind : kind = HANDSHAKE) (hne : content ≠ []) :
    after (protectedRecord cfg header body) e =
      after (handshakeRecord cfg content) (e.withRead (counted (some d))) := by
  subst hkind
  have hnonce : d.nonce = some (d.nonceAt d.seq, { d with seq := d.seq + 1 }) := if_pos hroom
  unfold protectedRecord
  rw [after_session, hread]
  simp only [hnonce]
  rw [after_modifySession, if_neg (by rw [hdata]; exact not_not.mpr rfl)]
  simp only [hopen, hunpad]
  have hplain (s : Session) : ¬(HANDSHAKE = APPLICATION_DATA ∧ s.state = .connected) :=
    fun h => absurd h.1 (by decide)
  rw [after_session, if_neg (hplain _), if_pos ⟨trivial, hne⟩]
  rfl

theorem protectedRecord_refused {d : Direction} {header body : List UInt8}
    (hread : e.session.read = some d) (hopen : header.headD 0 = APPLICATION_DATA →
      cfg.crypto.gcmOpen d.key (d.nonceAt d.seq) header body = none) :
    ∃ f e', after (protectedRecord cfg header body) e = (.error f, e') := by
  unfold protectedRecord
  rw [after_session, hread]
  by_cases hroom : d.seq + 1 < 2 ^ 64
  · have hnonce : d.nonce = some (d.nonceAt d.seq, { d with seq := d.seq + 1 }) := if_pos hroom
    simp only [hnonce]
    rw [after_modifySession]
    split_ifs with hdata
    · exact ⟨_, _, rfl⟩
    · simp only [hopen (not_not.mp hdata)]
      exact ⟨_, _, rfl⟩
  · have hnonce : d.nonce = none := if_neg hroom
    simp only [hnonce]
    exact ⟨_, _, rfl⟩

/-- A record that opens under the keys it was sealed with brings its piece to the buffer. -/
theorem record_piece {piece : List UInt8} (hseal : ∀ key nonce header m,
      cfg.crypto.gcmOpen key nonce header (cfg.crypto.gcmSeal key nonce header m) = some m)
    (hne : piece ≠ []) (hlen : piece.length ≤ MAX_PLAIN)
    (hroom : ∀ d, e.session.read = some d → d.seq + 1 < 2 ^ 64) :
    after (record cfg (recordHeader e.session.read piece) (recordBody cfg.crypto e.session.read piece)) e =
      after (handshakeRecord cfg piece) (e.withRead (counted e.session.read)) := by
  cases hread : e.session.read with
  | none =>
    have hsame : e.withRead (counted none) = e := by
      change e.withRead none = e
      rw [← hread]
      rfl
    unfold record
    rw [after_session, hsame, hread, headD_recordHeader]
    rw [if_neg (by decide), if_neg (by decide), if_pos ⟨rfl, hne⟩]
    rfl
  | some d =>
    have hccs : (recordHeader (some d) piece).headD 0 ≠ CHANGE_CIPHER_SPEC := by
      rw [headD_recordHeader, if_pos (by rfl)]
      decide
    rw [record_of_isSome hccs (by rw [hread]; rfl)]
    exact protectedRecord_of_open hread (hroom d hread) (headD_recordHeader _ _) (hseal _ _ _ _)
      (unpad_append hlen (by decide)) rfl hne

/-- What was sealed under the keys `d` does not open under the keys `d'`. -/
def Refused (c : Crypto) (d d' : Direction) : Prop :=
  ∀ seq piece, c.gcmOpen d'.key (d'.nonceAt d'.seq) (recordHeader (some d) piece)
    (recordBody c (some { d with seq }) piece) = none

theorem record_refused (piece : List UInt8) {read : Option Direction} (hsome : e.session.read.isSome)
    (hrefused : ∀ d d', read = some d → e.session.read = some d' → Refused cfg.crypto d d') :
    ∃ f e', after (record cfg (recordHeader read piece) (recordBody cfg.crypto read piece)) e =
      (.error f, e') := by
  have hccs : (recordHeader read piece).headD 0 ≠ CHANGE_CIPHER_SPEC := by
    rw [headD_recordHeader]
    split_ifs <;> decide
  obtain ⟨d', hread⟩ := Option.isSome_iff_exists.mp hsome
  rw [record_of_isSome hccs hsome]
  refine protectedRecord_refused hread fun hdata => ?_
  cases read with
  | none =>
    rw [headD_recordHeader] at hdata
    cases hdata
  | some d => exact hrefused d d' rfl hread d.seq piece

theorem guardedRecord_of_ok {header body : List UInt8} {u : Unit}
    (h : after (record cfg header body) e = (.ok u, e₁)) :
    after (guardedRecord cfg header body) e = (.ok u, e₁) := after_tryCatch_ok h

/-- A record that fails is not taken back. -/
theorem guardedRecord_of_error {header body : List UInt8} {f : Fault}
    (h : after (record cfg header body) e = (.error f, e₁)) :
    ∃ f' e', after (guardedRecord cfg header body) e = (.error f', e') := by
  unfold guardedRecord
  rw [after_tryCatch_error h]
  cases f with
  | stop err => exact after_abort cfg.crypto err e₁ Unit
  | panic => exact ⟨_, _, rfl⟩

end Chatlink.Net
