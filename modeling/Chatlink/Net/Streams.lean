import Chatlink.Net.Records
import Chatlink.Net.Sessions

/-!
# A handshake stream, however it is cut

Two ways of cutting a stream into records can differ for one reason only: a record may end where
what is buffered of a message, its header counted, is longer than the limit.
-/
namespace Chatlink.Net

open Fallible

variable {cfg : Config} {e e₀ e₁ e₂ : Exchange} {s x y : List UInt8} {read : Option Direction}
  {changed changed₁ : Bool}

/-! ### What was taken of a stream -/

/-- The session with these bytes buffered. -/
def Exchange.holding (e : Exchange) (buffer : List UInt8) : Exchange :=
  { e with session := { e.session with handshake := buffer } }

/-- The messages of `s` are accepted one after the other from `e`, nothing follows a change of
keys, and no length that is given is too large. -/
structure Taken (cfg : Config) (e : Exchange) (s : List UInt8) (e₁ : Exchange) (changed : Bool) : Prop where
  turns : Turns cfg e (wholes s) e₁ changed
  ends : changed = true → leftover s = []
  small : Small s

theorem Taken.unique (h : Taken cfg e s e₁ changed) (h' : Taken cfg e s e₂ changed₁) :
    e₁ = e₂ ∧ changed = changed₁ := h.turns.unique h'.turns

theorem taken_nil : Taken cfg e [] e false :=
  ⟨.nil, nofun, (small_of_cut (.inl (by decide))).mpr fun h => absurd (by decide) h⟩

theorem small_append_iff : Small (x ++ y) ↔
    (∀ m ∈ wholes x, bodyLength m ≤ MAX_HANDSHAKE) ∧ Small (leftover x ++ y) := by
  rw [Small, Small, (split_append x y).1, (split_append x y).2, List.forall_mem_append, and_assoc]

/-- The length that the bytes buffered give is one of those given in the end. -/
theorem small_of_append (h : Small (x ++ y)) : Small x := by
  obtain ⟨hwholes, hrest⟩ := small_append_iff.mp h
  refine ⟨hwholes, fun h4 => ?_⟩
  have hlength : bodyLength (leftover x ++ y) = bodyLength (leftover x) := bodyLength_append h4 y
  by_cases hp : Partial (leftover x ++ y)
  · rw [small_of_cut hp, hlength] at hrest
    refine hrest ?_
    rw [List.length_append]
    omega
  · rw [small_of_whole hp, hlength] at hrest
    exact hrest.1

/-- What is taken of a stream goes on from what was taken of its start. -/
theorem Taken.append_iff (h : Taken cfg e x e₀ false) : Taken cfg e (x ++ y) e₁ changed ↔
    Turns cfg e₀ (wholes (leftover x ++ y)) e₁ changed ∧
      (changed = true → leftover (leftover x ++ y) = []) ∧ Small (leftover x ++ y) := by
  constructor
  · rintro ⟨hturns, hends, hsmall⟩
    rw [(split_append x y).1] at hturns
    rw [(split_append x y).2] at hends
    rcases turns_append.mp hturns with ⟨e', h₁, h₂⟩ | ⟨-, -, h₁⟩
    · obtain ⟨rfl, -⟩ := h.turns.unique h₁
      exact ⟨h₂, hends, (small_append_iff.mp hsmall).2⟩
    · cases (h.turns.unique h₁).2
  · rintro ⟨hturns, hends, hsmall⟩
    refine ⟨?_, ?_, small_append_iff.mpr ⟨h.small.1, hsmall⟩⟩
    · rw [(split_append x y).1]
      exact turns_append.mpr (.inl ⟨e₀, h.turns, hturns⟩)
    · rwa [(split_append x y).2]

theorem Taken.start (h : Taken cfg e (x ++ y) e₁ changed) : ∃ e₀ changed₀, Taken cfg e x e₀ changed₀ := by
  have hturns := h.turns
  rw [(split_append x y).1] at hturns
  rcases turns_append.mp hturns with ⟨e₀, h₁, -⟩ | ⟨hnone, hc, h₁⟩
  · exact ⟨e₀, false, h₁, nofun, small_of_append h.small⟩
  · have hrest : leftover (leftover x ++ y) = [] := by
      rw [← (split_append x y).2]
      exact h.ends hc
    have hnil : leftover x ++ y = [] := eq_nil_of_split hnone hrest
    exact ⟨e₁, true, h₁, fun _ => (List.append_eq_nil_iff.mp hnil).1, small_of_append h.small⟩

/-- Nothing more of a stream is taken after a change of keys. -/
theorem Taken.ended (h : Taken cfg e x e₀ true) (hne : y ≠ []) : ¬Taken cfg e (x ++ y) e₁ changed := by
  rintro ⟨hturns, hends, -⟩
  rw [(split_append x y).1] at hturns
  rw [(split_append x y).2] at hends
  rcases turns_append.mp hturns with ⟨e', h₁, -⟩ | ⟨hnone, hc, -⟩
  · cases (h.turns.unique h₁).2
  · have hnil : leftover x ++ y = [] := eq_nil_of_split hnone (hends hc)
    exact hne (List.append_eq_nil_iff.mp hnil).2

/-! ### One record more -/

/-- What is relied on of the sealing: it adds a tag, and what was sealed opens. -/
structure Crypto.Seals (c : Crypto) : Prop where
  length_seal (key nonce header m : List UInt8) : (c.gcmSeal key nonce header m).length = m.length + TAG
  open_seal (key nonce header m : List UInt8) :
    c.gcmOpen key nonce header (c.gcmSeal key nonce header m) = some m

/-- The session that took `x`, its keys counted up to `read`. -/
def following (read : Option Direction) (x : List UInt8) (e₀ : Exchange) (changed : Bool) : Exchange :=
  (if changed then e₀ else e₀.withRead read).holding (leftover x)

theorem guardedRecord_ok_iff {header body : List UInt8} :
    after (guardedRecord cfg header body) e = (.ok (), e₁) ↔
      after (record cfg header body) e = (.ok (), e₁) := by
  constructor
  · intro h
    cases hr : after (record cfg header body) e with
    | mk r e' =>
      cases r with
      | error f =>
        obtain ⟨f', e'', hguarded⟩ := guardedRecord_of_error hr
        cases hguarded.symm.trans h
      | ok u =>
        rw [guardedRecord_of_ok hr] at h
        exact h
  · exact guardedRecord_of_ok

theorem Taken.handshake_eq (h : Taken cfg e x e₀ changed) (hempty : e.session.handshake = []) :
    e₀.session.handshake = [] := by
  obtain ⟨-, -, -, hsame⟩ := h.turns.withRead (.refl _)
  exact hsame.trans hempty

theorem Taken.record_ok_iff {piece : List UInt8} (e' : Exchange) (h : Taken cfg e x e₀ false)
    (hc : cfg.crypto.Seals) (hempty : e.session.handshake = []) (hsame : SameKeys read e.session.read)
    (hne : piece ≠ []) (hlen : piece.length ≤ MAX_PLAIN)
    (hroom : ∀ d, read = some d → d.seq + 1 < 2 ^ 64) :
    after (guardedRecord cfg (recordHeader read piece) (recordBody cfg.crypto read piece))
        (following read x e₀ false) = (.ok (), e') ↔
      ∃ e₁ changed, Taken cfg e (x ++ piece) e₁ changed ∧
        (leftover (x ++ piece)).length ≤ MAX_HANDSHAKE ∧
        e' = following (counted read) (x ++ piece) e₁ changed := by
  have hkeys : SameKeys (counted read) e₀.session.read := by
    obtain ⟨-, hread, -⟩ := h.turns.withRead (.refl _)
    rw [hread rfl]
    refine .trans ?_ hsame
    cases read <;> rfl
  have hrecord : after (record cfg (recordHeader read piece) (recordBody cfg.crypto read piece))
      (following read x e₀ false) =
        after (handshakeRecord cfg piece) ((e₀.withRead (counted read)).holding (leftover x)) :=
    record_piece (e := following read x e₀ false) hc.open_seal hne hlen hroom
  have hclear : ((e₀.withRead (counted read)).holding (leftover x)).clear = e₀.withRead (counted read) := by
    have hnone := h.handshake_eq hempty
    obtain ⟨⟨⟩⟩ := e₀
    subst hnone
    rfl
  rw [guardedRecord_ok_iff, hrecord, handshakeRecord_ok_iff, hclear, (split_append x piece).2]
  constructor
  · rintro ⟨e₂, changed, hturns, hends, hsmall, hfits, rfl⟩
    obtain ⟨e₁, hturns', rfl⟩ := (turns_withRead_iff hkeys).mp hturns
    refine ⟨e₁, changed, h.append_iff.mpr ⟨hturns', hends, hsmall⟩, hfits, ?_⟩
    rw [following, (split_append x piece).2]
    rfl
  · rintro ⟨e₁, changed, htaken, hfits, rfl⟩
    obtain ⟨hturns, hends, hsmall⟩ := h.append_iff.mp htaken
    refine ⟨_, changed, (turns_withRead_iff hkeys).mpr ⟨e₁, hturns, rfl⟩, hends, hsmall, hfits, ?_⟩
    rw [following, (split_append x piece).2]
    rfl

/-! ### The records of a cut -/

/-- The records that carry the pieces one after the other, from the sender's keys. -/
def recordsOf (c : Crypto) : Option Direction → List (List UInt8) → List UInt8
  | _, [] => []
  | read, piece :: rest => recordHeader read piece ++ (recordBody c read piece ++ recordsOf c (counted read) rest)

/-- Where the buffer has room for what each record leaves over. -/
def Fits : List UInt8 → List (List UInt8) → Prop
  | _, [] => True
  | x, piece :: rest => (leftover (x ++ piece)).length ≤ MAX_HANDSHAKE ∧ Fits (x ++ piece) rest

theorem length_recordHeader (read : Option Direction) (piece : List UInt8) :
    (recordHeader read piece).length = HEADER := by
  unfold recordHeader
  split_ifs <;> simp [HEADER]

theorem length_recordBody {c : Crypto} (hc : c.Seals) (read : Option Direction) (piece : List UInt8) :
    (recordBody c read piece).length =
      if read.isSome then piece.length + 1 + TAG else piece.length := by
  cases read with
  | none => rfl
  | some d =>
    rw [recordBody, hc.length_seal]
    simp

theorem recordLength_recordHeader {c : Crypto} {piece : List UInt8} (hc : c.Seals)
    (hlen : piece.length ≤ MAX_PLAIN) (tail : List UInt8) :
    recordLength (recordHeader read piece ++ tail) = (recordBody c read piece).length := by
  have hmax : MAX_PLAIN + 1 + TAG < 256 ^ 2 := by decide
  rw [length_recordBody hc]
  unfold recordHeader
  split_ifs
  · have hbig : big (bigBytes 2 (piece.length + 1 + TAG)) = piece.length + 1 + TAG :=
      big_bigBytes (by omega)
    simp [recordLength, hbig]
  · have hbig : big (bigBytes 2 piece.length) = piece.length := big_bigBytes (by omega)
    simp [recordLength, hbig]

theorem head_recordHeader {session : Session} {piece : List UInt8} {tail : List UInt8}
    (hc : cfg.crypto.Seals) (hlen : piece.length ≤ MAX_PLAIN) (hopen : session.state ≠ .closed)
    (hread : read.isSome → session.read.isSome) :
    head session (recordHeader read piece ++ (recordBody cfg.crypto read piece ++ tail)) =
      .whole (recordBody cfg.crypto read piece).length := by
  have hversion : (recordHeader read piece ++ (recordBody cfg.crypto read piece ++ tail)).getD 1 0 = 3 := by
    unfold recordHeader
    split_ifs <;> rfl
  have hlimit : (recordBody cfg.crypto read piece).length ≤
      if session.read.isSome then MAX_RECORD else MAX_PLAIN := by
    have hmax : MAX_PLAIN + 1 + TAG ≤ MAX_RECORD := by decide
    rw [length_recordBody hc]
    split_ifs with hsealed hreads
    · omega
    · exact absurd (hread hsealed) hreads
    · omega
    · exact hlen
  have hwire : HEADER + (recordBody cfg.crypto read piece).length ≤
      (recordHeader read piece ++ (recordBody cfg.crypto read piece ++ tail)).length := by
    rw [List.length_append, List.length_append, length_recordHeader]
    omega
  unfold head
  rw [recordLength_recordHeader hc hlen, hversion, if_neg (not_or.mpr ⟨hopen, by omega⟩),
    if_neg (not_not.mpr rfl), if_neg (by omega), if_neg (by omega)]

/-- The first record of a cut: its header, its body, and the records behind it. -/
theorem recordsOf_cons {c : Crypto} (read : Option Direction) (piece : List UInt8) (rest : List (List UInt8)) :
    (recordsOf c read (piece :: rest)).take HEADER = recordHeader read piece ∧
    ((recordsOf c read (piece :: rest)).drop HEADER).take (recordBody c read piece).length =
      recordBody c read piece ∧
    (recordsOf c read (piece :: rest)).drop (HEADER + (recordBody c read piece).length) =
      recordsOf c (counted read) rest := by
  rw [← List.drop_drop, recordsOf, ← length_recordHeader read piece, List.take_left, List.drop_left,
    List.take_left, List.drop_left]
  exact ⟨rfl, rfl, rfl⟩

section

variable {piece : List UInt8} {rest : List (List UInt8)} {used : ℕ}

theorem recordsOf_next {u : Unit} (hc : cfg.crypto.Seals) (hlen : piece.length ≤ MAX_PLAIN)
    (hopen : e.session.state ≠ .closed) (hread : read.isSome → e.session.read.isSome)
    (hr : after (guardedRecord cfg (recordHeader read piece) (recordBody cfg.crypto read piece)) e =
      (.ok u, e₁)) :
    after (loop cfg (recordsOf cfg.crypto read (piece :: rest)) used) e =
      after (loop cfg (recordsOf cfg.crypto (counted read) rest)
        (used + HEADER + (recordBody cfg.crypto read piece).length)) e₁ := by
  obtain ⟨htake, hbody, hrest⟩ := @recordsOf_cons cfg.crypto read piece rest
  rw [← hrest]
  refine loop_next (u := u) (head_recordHeader hc hlen hopen hread) ?_
  rw [htake, hbody]
  exact hr

theorem recordsOf_failed {f : Fault} (hc : cfg.crypto.Seals) (hlen : piece.length ≤ MAX_PLAIN)
    (hopen : e.session.state ≠ .closed) (hread : read.isSome → e.session.read.isSome)
    (hr : after (guardedRecord cfg (recordHeader read piece) (recordBody cfg.crypto read piece)) e =
      (.error f, e₁)) :
    after (loop cfg (recordsOf cfg.crypto read (piece :: rest)) used) e = (.error f, e₁) := by
  obtain ⟨htake, hbody, -⟩ := @recordsOf_cons cfg.crypto read piece rest
  refine loop_failed (head_recordHeader hc hlen hopen hread) ?_
  rw [htake, hbody]
  exact hr

end

/-- What was sealed under the keys of `e` does not open under those that a message of `s` brings. -/
def Refuses (cfg : Config) (e : Exchange) (s : List UInt8) : Prop :=
  ∀ ms e₁ d d', ms <+: wholes s → Turns cfg e ms e₁ true → e.session.read = some d →
    e₁.session.read = some d' → Refused cfg.crypto d d'

/-- A change of keys leaves no record that the old ones sealed. -/
theorem Taken.refused (piece : List UInt8) (h : Taken cfg e x e₀ true)
    (hrefuses : Refuses cfg e (x ++ y)) (hsame : SameKeys read e.session.read) :
    ∃ f e', after (guardedRecord cfg (recordHeader read piece) (recordBody cfg.crypto read piece))
      (following read x e₀ true) = (.error f, e') := by
  obtain ⟨-, -, hsome, -⟩ := h.turns.withRead (.refl _)
  have hrefused (d d' : Direction) (hd : read = some d) (hd' : e₀.session.read = some d') :
      Refused cfg.crypto d d' := by
    subst hd
    cases he : e.session.read with
    | none =>
      rw [he] at hsame
      cases hsame
    | some d₀ =>
      have hprefix : wholes x <+: wholes (x ++ y) := by
        rw [(split_append x y).1]
        exact List.prefix_append _ _
      have hold := hrefuses _ e₀ d₀ d' hprefix h.turns he hd'
      rw [he] at hsame
      have heq : { d with seq := 0 } = { d₀ with seq := 0 } := Option.some.inj hsame
      intro seq piece
      have hd₀ : { d with seq } = { d₀ with seq } := congrArg (fun d : Direction => { d with seq }) heq
      have hheader : recordHeader (some d) piece = recordHeader (some d₀) piece := rfl
      rw [hd₀, hheader]
      exact hold seq piece
  obtain ⟨f, e', hr⟩ := record_refused (e := following read x e₀ true) piece (hsome rfl) hrefused
  exact guardedRecord_of_error hr

theorem state_following : (following read x e₀ changed).session.state = e₀.session.state := by
  cases changed <;> rfl

theorem accepted_following : (following read x e₀ changed).accepted = e₀.accepted := by
  cases changed <;> rfl

/-- The records of a cut are accepted when the messages of the stream are and the buffer has room
all the way. -/
theorem loop_recordsOf {ps : List (List UInt8)} {used : ℕ} {accepted : List Accepted}
    (h : Taken cfg e x e₀ changed) (hc : cfg.crypto.Seals) (hempty : e.session.handshake = [])
    (hopen : e.session.state ≠ .closed) (hsame : SameKeys read e.session.read)
    (hlegal : ∀ piece ∈ ps, piece ≠ [] ∧ piece.length ≤ MAX_PLAIN)
    (hroom : ∀ d, read = some d → d.seq + ps.length < 2 ^ 64)
    (hrefuses : Refuses cfg e (x ++ ps.flatten)) :
    (∃ n e', after (loop cfg (recordsOf cfg.crypto read ps) used) (following read x e₀ changed) =
        (.ok n, e') ∧ e'.accepted = accepted) ↔
      (∃ e₁ changed₁, Taken cfg e (x ++ ps.flatten) e₁ changed₁ ∧ e₁.accepted = accepted) ∧ Fits x ps := by
  induction ps generalizing x e₀ changed read used with
  | nil =>
    have hwait : after (loop cfg [] used) (following read x e₀ changed) =
        (.ok used, following read x e₀ changed) := receiveFrom_nil
    rw [List.flatten_nil, List.append_nil]
    constructor
    · rintro ⟨n, e', hrun, rfl⟩
      obtain ⟨-, rfl⟩ := Prod.mk.inj (hwait.symm.trans hrun)
      exact ⟨⟨e₀, changed, h, accepted_following.symm⟩, trivial⟩
    · rintro ⟨⟨e₁, changed₁, h₁, rfl⟩, -⟩
      obtain ⟨rfl, -⟩ := h.unique h₁
      exact ⟨used, _, hwait, accepted_following⟩
  | cons piece rest ih =>
    obtain ⟨⟨hne, hlen⟩, hlegal'⟩ := List.forall_mem_cons.mp hlegal
    have hstate : (following read x e₀ changed).session.state ≠ .closed := by
      rw [state_following]
      exact h.turns.stays_open hopen
    have hreads : read.isSome → (following read x e₀ changed).session.read.isSome := by
      intro hr
      cases changed with
      | false => exact hr
      | true =>
        obtain ⟨-, -, hsome, -⟩ := h.turns.withRead (.refl _)
        exact hsome rfl
    cases changed with
    | true =>
      rw [List.flatten_cons] at hrefuses ⊢
      obtain ⟨f, e', hr⟩ := h.refused piece hrefuses hsame
      rw [recordsOf_failed hc hlen hstate hreads hr]
      refine iff_of_false ?_ ?_
      · rintro ⟨n, e', hrun, -⟩
        cases (Prod.mk.inj hrun).1
      rintro ⟨⟨e₁, changed₁, h₁, -⟩, -⟩
      exact h.ended (List.append_ne_nil_of_left_ne_nil hne _) h₁
    | false =>
      rw [List.flatten_cons, ← List.append_assoc] at hrefuses ⊢
      have hcount (d : Direction) (hd : read = some d) : d.seq + rest.length + 1 < 2 ^ 64 := by
        have hd' := hroom d hd
        rw [List.length_cons] at hd'
        omega
      have hone (e' : Exchange) := h.record_ok_iff e' hc hempty hsame hne hlen
        fun d hd => by have := hcount d hd; omega
      cases hr : after (guardedRecord cfg (recordHeader read piece) (recordBody cfg.crypto read piece))
          (following read x e₀ false) with
      | mk r e' =>
        cases r with
        | ok u =>
          obtain ⟨e₁, changed₁, h₁, hfits, rfl⟩ := (hone e').mp hr
          have hsame' : SameKeys (counted read) e.session.read := by
            refine .trans ?_ hsame
            cases read <;> rfl
          have hroom' (d : Direction) (hd : counted read = some d) : d.seq + rest.length < 2 ^ 64 := by
            obtain ⟨d₀, hd₀, rfl⟩ := Option.map_eq_some_iff.mp hd
            have := hcount d₀ hd₀
            dsimp only
            omega
          rw [recordsOf_next hc hlen hstate hreads hr, ih h₁ hsame' hlegal' hroom' hrefuses]
          exact and_congr_right fun _ => (and_iff_right hfits).symm
        | error f =>
          rw [recordsOf_failed hc hlen hstate hreads hr]
          refine iff_of_false ?_ ?_
          · rintro ⟨n, e', hrun, -⟩
            cases (Prod.mk.inj hrun).1
          rintro ⟨⟨e₁, changed₁, h₁, -⟩, hfits, -⟩
          obtain ⟨e₂, changed₂, h₂⟩ := h₁.start
          cases hr.symm.trans ((hone _).mpr ⟨e₂, changed₂, h₂, hfits, rfl⟩)

/-! ### Two ways of cutting a stream -/

/-- A way of cutting the stream into records of a legal size, none of them empty. -/
structure IsCut (s : List UInt8) (ps : List (List UInt8)) : Prop where
  flatten_eq : ps.flatten = s
  legal : ∀ piece ∈ ps, piece ≠ [] ∧ piece.length ≤ MAX_PLAIN

theorem IsCut.length_le {ps : List (List UInt8)} (h : IsCut s ps) : ps.length ≤ s.length := by
  obtain ⟨rfl, hlegal⟩ := h
  induction ps with
  | nil => exact le_rfl
  | cons piece rest ih =>
    obtain ⟨⟨hne, -⟩, hrest⟩ := List.forall_mem_cons.mp hlegal
    have hpos : 0 < piece.length := List.length_pos_iff.mpr hne
    rw [List.flatten_cons, List.length_append, List.length_cons]
    have := ih hrest
    omega

/-- The same messages accepted, or an error both times. -/
def Agree (r r' : Except Fault ℕ × Exchange) : Prop :=
  (∃ n n' e e', r = (.ok n, e) ∧ r' = (.ok n', e') ∧ e.accepted = e'.accepted) ∨
    ∃ f f' e e', r = (.error f, e) ∧ r' = (.error f', e')

theorem fits_append {ps qs : List (List UInt8)} : Fits x (ps ++ qs) ↔ Fits x ps ∧ Fits (x ++ ps.flatten) qs := by
  induction ps generalizing x with
  | nil => simp [Fits]
  | cons piece rest ih =>
    rw [List.cons_append, Fits, Fits, ih, and_assoc, List.flatten_cons, List.append_assoc]

/-- Only what is left over counts. -/
theorem fits_leftover {ps : List (List UInt8)} : Fits x ps ↔ Fits (leftover x) ps := by
  induction ps generalizing x with
  | nil => exact Iff.rfl
  | cons piece rest ih =>
    rw [Fits, Fits, ← (split_append x piece).2, ih, ih (x := leftover x ++ piece), (split_append x piece).2]

theorem Fits.last {ps : List (List UInt8)} (h : Fits x ps) (hne : ps ≠ []) :
    (leftover (x ++ ps.flatten)).length ≤ MAX_HANDSHAKE := by
  induction ps generalizing x with
  | nil => exact absurd rfl hne
  | cons piece rest ih =>
    rw [List.flatten_cons, ← List.append_assoc]
    cases rest with
    | nil => simpa using h.1
    | cons piece' rest' => exact ih h.2 nofun

/-- There is room for every cut when every start of the stream leaves little over. -/
theorem fits_of_starts {ps : List (List UInt8)}
    (h : ∀ y, y <+: ps.flatten → (leftover (x ++ y)).length ≤ MAX_HANDSHAKE) : Fits x ps := by
  induction ps generalizing x with
  | nil => trivial
  | cons piece rest ih =>
    rw [List.flatten_cons] at h
    refine ⟨h piece (List.prefix_append _ _), ih fun y hy => ?_⟩
    rw [List.append_assoc]
    exact h _ ((List.prefix_append_right_inj piece).mpr hy)

/-- One byte a record. -/
def singles (s : List UInt8) : List (List UInt8) := s.map fun b => [b]

theorem isCut_singles (s : List UInt8) : IsCut s (singles s) := by
  refine ⟨?_, ?_⟩
  · induction s with
    | nil => rfl
    | cons b s ih =>
      rw [singles, List.map_cons, List.flatten_cons]
      exact congrArg (b :: ·) ih
  · intro piece hmem
    obtain ⟨b, -, rfl⟩ := List.mem_map.mp hmem
    exact ⟨nofun, (by decide : 1 ≤ MAX_PLAIN)⟩

/-- Records of one byte end everywhere. -/
theorem Fits.starts_singles (h : Fits x (singles s)) (hy : y <+: s) (hne : y ≠ []) :
    (leftover (x ++ y)).length ≤ MAX_HANDSHAKE := by
  obtain ⟨z, rfl⟩ := hy
  have hsplit : singles (y ++ z) = singles y ++ singles z := List.map_append
  rw [hsplit] at h
  have hlast := (fits_append.mp h).1.last fun hnil => hne (List.map_eq_nil_iff.mp hnil)
  rwa [(isCut_singles y).flatten_eq] at hlast

theorem length_leftover_le (s : List UInt8) : (leftover s).length ≤ s.length := by
  have hlen := congrArg List.length (flatten_wholes s)
  rw [List.length_append] at hlen
  omega

/-- The first message of a stream, alone. -/
theorem split_first (h : ¬Partial s) : ¬Partial (s.take (4 + bodyLength s)) ∧
    leftover (s.take (4 + bodyLength s)) = [] ∧
    (s.take (4 + bodyLength s)).length = 4 + bodyLength s := by
  obtain ⟨h4, hbody⟩ := not_or.mp h
  have hlen : (s.take (4 + bodyLength s)).length = 4 + bodyLength s := by
    rw [List.length_take]
    omega
  have hsame : bodyLength (s.take (4 + bodyLength s)) = bodyLength s := by
    have happend := bodyLength_append (s := s.take (4 + bodyLength s)) (by omega) (s.drop (4 + bodyLength s))
    rwa [List.take_append_drop, eq_comm] at happend
  have hwhole : ¬Partial (s.take (4 + bodyLength s)) := by
    rw [Partial, hlen, hsame]
    omega
  refine ⟨hwhole, ?_, hlen⟩
  rw [(split_of_whole hwhole).2, hsame, List.drop_of_length_le (by omega)]
  rfl

/-- What a start of the stream leaves over is a start of one of its messages or of its rest. -/
theorem leftover_start_le {n : ℕ} (hshort : ∀ m ∈ wholes (x ++ y), m.length ≤ n + 1)
    (hrest : (leftover (x ++ y)).length ≤ n) : (leftover x).length ≤ n := by
  rw [(split_append x y).1] at hshort
  rw [(split_append x y).2] at hrest
  by_cases hp : Partial (leftover x ++ y)
  · rw [(split_of_cut hp).2, List.length_append] at hrest
    omega
  · have hfirst : (leftover x ++ y).take (4 + bodyLength (leftover x ++ y)) ∈
        wholes x ++ wholes (leftover x ++ y) := by
      rw [(split_of_whole hp).1]
      simp
    have hle := hshort _ hfirst
    rw [(split_first hp).2.2] at hle
    rcases partial_leftover x with h4 | hbody
    · omega
    · by_cases h4 : (leftover x).length < 4
      · omega
      · rw [bodyLength_append h4] at hle
        omega

theorem partial_take {k : ℕ} (hk : k < 4 + bodyLength s) : Partial (s.take k) := by
  by_contra hp
  obtain ⟨h4, hbody⟩ := not_or.mp hp
  have hsame := bodyLength_append h4 (s.drop k)
  rw [List.take_append_drop] at hsame
  rw [← hsame, List.length_take] at hbody
  omega

/-- Records of one byte leave too much of a long message in the buffer. -/
theorem short_of_fits_singles (h : Fits [] (singles s)) : ∀ m ∈ wholes s, m.length ≤ MAX_HANDSHAKE + 1 := by
  induction s using stream_induction with
  | hpart s hp =>
    rw [(split_of_cut hp).1]
    nofun
  | hwhole s hp ih =>
    obtain ⟨hwhole, hend, hlen⟩ := split_first hp
    have hflatten := (isCut_singles (s.take (4 + bodyLength s))).flatten_eq
    rw [← List.take_append_drop (4 + bodyLength s) s, singles, List.map_append, fits_append] at h
    change Fits [] (singles _) ∧ Fits ([] ++ (singles _).flatten) (singles _) at h
    rw [hflatten, List.nil_append, fits_leftover (x := s.take _), hend] at h
    rw [(split_of_whole hp).1, List.forall_mem_cons]
    refine ⟨?_, ih h.2⟩
    by_contra hlong
    rw [hlen] at hlong
    have hstart : s.take (MAX_HANDSHAKE + 1) <+: s.take (4 + bodyLength s) :=
      List.take_prefix_take_left (by omega)
    have hlength : (s.take (MAX_HANDSHAKE + 1)).length = MAX_HANDSHAKE + 1 := by
      rw [List.length_take] at hlen ⊢
      omega
    have hfits := h.1.starts_singles hstart (List.ne_nil_of_length_eq_add_one hlength)
    rw [List.nil_append, (split_of_cut (partial_take (by omega))).2] at hfits
    omega

/-- Bytes within the limit fit in any cut. -/
theorem fits_of_length_le {ps : List (List UInt8)} (h : IsCut s ps) (hlen : s.length ≤ MAX_HANDSHAKE) :
    Fits [] ps := by
  refine fits_of_starts fun y hy => ?_
  rw [h.flatten_eq] at hy
  exact (length_leftover_le y).trans (hy.length_le.trans hlen)

theorem exists_fits_message (hend : leftover s = []) (hlen : s.length ≤ MAX_HANDSHAKE + 4) :
    ∃ ps, IsCut s ps ∧ Fits [] ps := by
  have hfirst : (s.take MAX_HANDSHAKE).length ≤ MAX_HANDSHAKE := List.length_take_le _ _
  by_cases hnil : s.drop MAX_HANDSHAKE = []
  · have hshort : s.length ≤ MAX_HANDSHAKE := List.drop_eq_nil_iff.mp hnil
    exact ⟨singles s, isCut_singles s, fits_of_length_le (isCut_singles s) hshort⟩
  · have hflatten := (isCut_singles (s.take MAX_HANDSHAKE)).flatten_eq
    refine ⟨singles (s.take MAX_HANDSHAKE) ++ [s.drop MAX_HANDSHAKE], ⟨?_, ?_⟩, ?_⟩
    · rw [List.flatten_append, hflatten, List.flatten_singleton, List.take_append_drop]
    · have hplain : 4 ≤ MAX_PLAIN := by decide
      have hlast : (s.drop MAX_HANDSHAKE).length ≤ MAX_PLAIN := by
        rw [List.length_drop]
        omega
      refine List.forall_mem_append.mpr ⟨(isCut_singles _).legal, fun piece hmem => ?_⟩
      obtain rfl := List.mem_singleton.mp hmem
      exact ⟨hnil, hlast⟩
    · refine fits_append.mpr ⟨fits_of_length_le (isCut_singles _) hfirst, ?_, trivial⟩
      rw [hflatten, List.nil_append, List.take_append_drop, hend]
      exact Nat.zero_le _

/-- Some cut suits every stream whose lengths are not too large: what exceeds the limit of a
message comes in one record. -/
theorem exists_fits (hsmall : Small s) (hrest : (leftover s).length ≤ MAX_HANDSHAKE) :
    ∃ ps, IsCut s ps ∧ Fits [] ps := by
  induction s using stream_induction with
  | hpart s hp =>
    rw [(split_of_cut hp).2] at hrest
    exact ⟨singles s, isCut_singles s, fits_of_length_le (isCut_singles s) hrest⟩
  | hwhole s hp ih =>
    obtain ⟨hlimit, hsmall'⟩ := (small_of_whole hp).mp hsmall
    rw [(split_of_whole hp).2] at hrest
    obtain ⟨-, hend, hlen⟩ := split_first hp
    obtain ⟨ps, hcut, hfits⟩ := ih hsmall' hrest
    generalize hm : s.take (4 + bodyLength s) = m at hend hlen
    have hs : m ++ s.drop (4 + bodyLength s) = s := by
      rw [← hm]
      exact List.take_append_drop _ _
    obtain ⟨ms, hmcut, hmfits⟩ := exists_fits_message hend (by omega)
    refine ⟨ms ++ ps, ⟨?_, ?_⟩, ?_⟩
    · rw [List.flatten_append, hmcut.flatten_eq, hcut.flatten_eq, hs]
    · exact List.forall_mem_append.mpr ⟨hmcut.legal, hcut.legal⟩
    · refine fits_append.mpr ⟨hmfits, ?_⟩
      rw [hmcut.flatten_eq, List.nil_append, fits_leftover, hend]
      exact hfits

/-- Where no message is long, there is room for every cut. -/
theorem IsCut.fits {ps : List (List UInt8)} (h : IsCut s ps)
    (hshort : ∀ m ∈ wholes s, m.length ≤ MAX_HANDSHAKE + 1)
    (hrest : (leftover s).length ≤ MAX_HANDSHAKE) : Fits [] ps := by
  refine fits_of_starts fun y hy => ?_
  rw [h.flatten_eq] at hy
  obtain ⟨z, rfl⟩ := hy
  exact leftover_start_le hshort hrest

theorem IsCut.rest_of_fits {ps : List (List UInt8)} (h : IsCut s ps) (hfits : Fits [] ps) :
    (leftover s).length ≤ MAX_HANDSHAKE := by
  by_cases hnil : ps = []
  · subst hnil
    obtain rfl : [] = s := h.flatten_eq
    exact Nat.zero_le _
  · have hlast := hfits.last hnil
    rwa [h.flatten_eq] at hlast

/-! ### Streams that are accepted, and streams that were sent -/

/-- Whole, the stream is accepted: its messages one after the other, nothing behind a change of
keys, no length beyond the limit and no more than the limit left over. -/
def Acceptable (cfg : Config) (e : Exchange) (s : List UInt8) : Prop :=
  (∃ e₁ changed, Taken cfg e s e₁ changed) ∧ (leftover s).length ≤ MAX_HANDSHAKE

/-- A stream sent under the session's read keys: nothing is buffered before it, the keys have a
number for each of its records, and none of these opens under later keys. -/
structure Sent (cfg : Config) (e : Exchange) (s : List UInt8) : Prop where
  seals : cfg.crypto.Seals
  empty : e.session.handshake = []
  room : ∀ d, e.session.read = some d → d.seq + s.length < 2 ^ 64
  refuses : Refuses cfg e s

/-- The records of a cut, given to a session. -/
def received (cfg : Config) (e : Exchange) (ps : List (List UInt8)) : Except Fault ℕ × Exchange :=
  after (receive cfg (recordsOf cfg.crypto e.session.read ps)) e

section

variable {ps qs : List (List UInt8)}

theorem received_ok_iff {accepted : List Accepted} (h : Sent cfg e s) (hcut : IsCut s ps)
    (hopen : e.session.state ≠ .closed) :
    (∃ n e', received cfg e ps = (.ok n, e') ∧ e'.accepted = accepted) ↔
      (∃ e₁ changed, Taken cfg e s e₁ changed ∧ e₁.accepted = accepted) ∧ Fits [] ps := by
  have hstart : following e.session.read [] e false = e := by
    obtain ⟨⟨⟩⟩ := e
    have hnone := h.empty
    dsimp only at hnone
    subst hnone
    rfl
  have hroom (d : Direction) (hd : e.session.read = some d) : d.seq + ps.length < 2 ^ 64 :=
    (Nat.add_le_add_left hcut.length_le d.seq).trans_lt (h.room d hd)
  have hflatten : [] ++ ps.flatten = s := hcut.flatten_eq
  have hloop := @loop_recordsOf cfg e e [] e.session.read false ps 0 accepted taken_nil h.seals h.empty
    hopen (.refl _) hcut.legal hroom (hflatten ▸ h.refuses)
  rw [hstart, hflatten] at hloop
  exact hloop

theorem received_error (h : Sent cfg e s) (hcut : IsCut s ps) (hopen : e.session.state ≠ .closed)
    (hnot : ¬((∃ e₁ changed, Taken cfg e s e₁ changed) ∧ Fits [] ps)) :
    ∃ f e', received cfg e ps = (.error f, e') := by
  cases hr : received cfg e ps with
  | mk r e' =>
    cases r with
    | error f => exact ⟨f, e', rfl⟩
    | ok n =>
      obtain ⟨⟨e₁, changed, htaken, -⟩, hfits⟩ := (received_ok_iff h hcut hopen).mp ⟨n, e', hr, rfl⟩
      exact absurd ⟨⟨e₁, changed, htaken⟩, hfits⟩ hnot

/-- Two cuts of an accepted stream agree when the buffer has room for both or for neither. -/
theorem agree_iff (h : Sent cfg e s) (hps : IsCut s ps) (hqs : IsCut s qs)
    (hopen : e.session.state ≠ .closed) : Agree (received cfg e ps) (received cfg e qs) ↔
      ((∃ e₁ changed, Taken cfg e s e₁ changed) → (Fits [] ps ↔ Fits [] qs)) := by
  constructor
  · rintro (⟨n, n', e', e'', hp, hq, -⟩ | ⟨f, f', e', e'', hp, hq⟩) ⟨e₁, changed, htaken⟩
    · have hfits := ((received_ok_iff h hps hopen).mp ⟨n, e', hp, rfl⟩).2
      have hfits' := ((received_ok_iff h hqs hopen).mp ⟨n', e'', hq, rfl⟩).2
      exact iff_of_true hfits hfits'
    · refine iff_of_false (fun hfits => ?_) fun hfits => ?_
      · obtain ⟨n, e₂, hok, -⟩ := (received_ok_iff h hps hopen).mpr ⟨⟨e₁, changed, htaken, rfl⟩, hfits⟩
        cases hp.symm.trans hok
      · obtain ⟨n, e₂, hok, -⟩ := (received_ok_iff h hqs hopen).mpr ⟨⟨e₁, changed, htaken, rfl⟩, hfits⟩
        cases hq.symm.trans hok
  · intro hsame
    by_cases hboth : (∃ e₁ changed, Taken cfg e s e₁ changed) ∧ Fits [] ps
    · obtain ⟨⟨e₁, changed, htaken⟩, hfits⟩ := hboth
      have hfits' : Fits [] qs := (hsame ⟨e₁, changed, htaken⟩).mp hfits
      obtain ⟨n, e', hp, haccepted⟩ :=
        (received_ok_iff h hps hopen).mpr ⟨⟨e₁, changed, htaken, rfl⟩, hfits⟩
      obtain ⟨n', e'', hq, haccepted'⟩ :=
        (received_ok_iff h hqs hopen).mpr ⟨⟨e₁, changed, htaken, rfl⟩, hfits'⟩
      exact .inl ⟨n, n', e', e'', hp, hq, haccepted.trans haccepted'.symm⟩
    · have hneither : ¬((∃ e₁ changed, Taken cfg e s e₁ changed) ∧ Fits [] qs) := by
        rintro ⟨htaken, hfits'⟩
        exact hboth ⟨htaken, (hsame htaken).mpr hfits'⟩
      obtain ⟨f, e', hp⟩ := received_error h hps hopen hboth
      obtain ⟨f', e'', hq⟩ := received_error h hqs hopen hneither
      exact .inr ⟨f, f', e', e'', hp, hq⟩

/-- A closed session takes nothing. -/
theorem agree_of_closed (hclosed : e.session.state = .closed) :
    Agree (received cfg e ps) (received cfg e qs) := by
  have hwait (wire : List UInt8) : after (receive cfg wire) e = (.ok 0, e) :=
    loop_wait (if_pos (.inl hclosed))
  exact .inl ⟨0, 0, e, e, hwait _, hwait _, rfl⟩

end

/-- A stream that is accepted whole and has a message longer than the buffer can hold is accepted in
one cut and refused in another. -/
theorem exists_disagree (h : Sent cfg e s) (hacceptable : Acceptable cfg e s) {m : List UInt8}
    (hm : m ∈ wholes s) (hlong : MAX_HANDSHAKE + 1 < m.length) :
    ∃ ps qs, IsCut s ps ∧ IsCut s qs ∧ ¬Agree (received cfg e ps) (received cfg e qs) := by
  obtain ⟨⟨e₁, changed, htaken⟩, hrest⟩ := hacceptable
  have hopen : e.session.state ≠ .closed := by
    intro hclosed
    rw [htaken.turns.eq_nil_of_closed hclosed] at hm
    cases hm
  obtain ⟨ps, hps, hfits⟩ := exists_fits htaken.small hrest
  refine ⟨ps, singles s, hps, isCut_singles s, fun hagree => ?_⟩
  have hsingles := ((agree_iff h hps (isCut_singles s) hopen).mp hagree ⟨e₁, changed, htaken⟩).mp hfits
  have := short_of_fits_singles hsingles m hm
  omega

/-- How a stream is cut does not matter, unless one of its messages is longer than the buffer may
be between two records, and the stream is otherwise accepted. -/
theorem cuts_agree_iff (cfg : Config) (e : Exchange) (s : List UInt8) (h : Sent cfg e s) :
    (∀ ps qs, IsCut s ps → IsCut s qs → Agree (received cfg e ps) (received cfg e qs)) ↔
      (Acceptable cfg e s → ∀ m ∈ wholes s, m.length ≤ MAX_HANDSHAKE + 1) := by
  constructor
  · intro hagree hacceptable m hm
    by_contra hlong
    obtain ⟨ps, qs, hps, hqs, hnot⟩ := exists_disagree h hacceptable hm (not_le.mp hlong)
    exact hnot (hagree ps qs hps hqs)
  · intro hshort ps qs hps hqs
    by_cases hclosed : e.session.state = .closed
    · exact agree_of_closed hclosed
    · refine (agree_iff h hps hqs hclosed).mpr fun htaken => ?_
      by_cases hrest : (leftover s).length ≤ MAX_HANDSHAKE
      · have hmessages := hshort ⟨htaken, hrest⟩
        exact iff_of_true (hps.fits hmessages hrest) (hqs.fits hmessages hrest)
      · exact iff_of_false (mt hps.rest_of_fits hrest) (mt hqs.rest_of_fits hrest)

/-! ### A ticket -/

theorem length_handshakeMessage (kind : UInt8) (body : List UInt8) :
    (handshakeMessage kind body).length = 4 + body.length := by
  simp [handshakeMessage, prefixed]
  omega

theorem split_handshakeMessage (kind : UInt8) {body : List UInt8} (hlen : body.length < 256 ^ 3) :
    bodyLength (handshakeMessage kind body) = body.length ∧
    wholes (handshakeMessage kind body) = [handshakeMessage kind body] ∧
      leftover (handshakeMessage kind body) = [] := by
  have hbody : bodyLength (handshakeMessage kind body) = body.length := by
    simp [bodyLength, handshakeMessage, prefixed, big_bigBytes hlen]
  have hlength := length_handshakeMessage kind body
  have hwhole : ¬Partial (handshakeMessage kind body) := by
    rw [Partial, hlength, hbody]
    omega
  obtain ⟨hw, hl⟩ := split_of_whole hwhole
  rw [hw, hl, hbody, ← hlength, List.take_length, List.drop_length]
  exact ⟨rfl, rfl, rfl⟩

section

variable {body : List UInt8}

def ticket (body : List UInt8) : List UInt8 := handshakeMessage NEW_SESSION_TICKET body

theorem length_ticket (body : List UInt8) : (ticket body).length = 4 + body.length :=
  length_handshakeMessage _ _

theorem rekeys_ticket (body : List UInt8) (hs : e.session.state = .connected) :
    rekeys e.session.state ((ticket body).headD 0) = false := by
  rw [hs]
  rfl

theorem turns_ticket (body : List UInt8) (hs : e.session.state = .connected) : Turns cfg e [ticket body]
    { e with accepted := e.accepted ++ [⟨cfg.now, ticket body⟩] } false := by
  refine .keep (rekeys_ticket body hs) (message_ok_iff.mpr ⟨fun _ => rfl, e, ?_, rfl⟩) .nil
  rw [hs]
  rfl

theorem acceptable_ticket (hs : e.session.state = .connected) (hlen : body.length ≤ MAX_HANDSHAKE) :
    Acceptable cfg e (ticket body) := by
  have hmax : MAX_HANDSHAKE < 256 ^ 3 := by decide
  obtain ⟨hbody, hw, hl⟩ := split_handshakeMessage NEW_SESSION_TICKET (by omega : body.length < 256 ^ 3)
  rw [← ticket] at hbody hw hl
  have hsmall : Small (ticket body) := by
    rw [Small, hw, hl]
    refine ⟨fun m hm => ?_, fun h4 => absurd (by decide) h4⟩
    rw [List.mem_singleton.mp hm, hbody]
    exact hlen
  refine ⟨⟨_, false, hw ▸ turns_ticket body hs, Bool.noConfusion, hsmall⟩, ?_⟩
  rw [hl]
  exact Nat.zero_le _

/-- A ticket changes no keys. -/
theorem refuses_ticket (hs : e.session.state = .connected) (hlen : body.length < 256 ^ 3) :
    Refuses cfg e (ticket body) := by
  obtain ⟨-, hw, -⟩ := split_handshakeMessage NEW_SESSION_TICKET hlen
  intro ms e₁ d d' hprefix hturns
  rw [ticket, hw, ← ticket] at hprefix
  rcases List.prefix_cons_iff.mp hprefix with rfl | ⟨rest, rfl, hrest⟩
  · cases hturns
  · obtain rfl := List.prefix_nil.mp hrest
    cases (hturns.unique (turns_ticket body hs)).2

end

namespace Hub

/-- Sealing that adds a tag of zeros. -/
def tagged : Start :=
  { start with
    crypto := { crypto with
      gcmSeal := fun _ _ _ m => m ++ List.replicate TAG 0
      gcmOpen := fun _ _ _ body => some (body.take (body.length - TAG)) } }

theorem seals_tagged : tagged.crypto.Seals := by
  refine ⟨fun key nonce header m => ?_, fun key nonce header m => ?_⟩
  · change (m ++ List.replicate TAG 0).length = m.length + TAG
    rw [List.length_append, List.length_replicate]
  · change some ((m ++ List.replicate TAG 0).take ((m ++ List.replicate TAG 0).length - TAG)) = some m
    rw [List.length_append, List.length_replicate, Nat.add_sub_cancel, List.take_left]

/-- The session of `tagged` once it is connected. -/
def settled : Exchange :=
  (after (receive (tagged.config Renewed.newYear) (plainRecord HANDSHAKE 3 serverHello ++
    plainRecord CHANGE_CIPHER_SPEC 3 [1] ++
    plainRecord APPLICATION_DATA 3 (flight ++ [HANDSHAKE] ++ List.replicate TAG 0))) tagged.exchange).2

theorem settled_session : settled.session.state = .connected ∧ settled.session.handshake = [] ∧
    settled.session.read.map Direction.seq = some 0 := by decide +kernel

theorem sent_ticket {body : List UInt8} (hlen : body.length ≤ MAX_HANDSHAKE) :
    Sent (tagged.config Renewed.newYear) settled (ticket body) := by
  have hmax : MAX_HANDSHAKE < 256 ^ 3 := by decide
  obtain ⟨hs, hempty, hseq⟩ := settled_session
  refine ⟨seals_tagged, hempty, fun d hd => ?_, refuses_ticket hs (by omega)⟩
  have hzero : d.seq = 0 := by
    rw [hd] at hseq
    exact Option.some.inj hseq
  rw [hzero, length_ticket]
  omega

end Hub

section

open Chatlink.Net.Hub

theorem cuts_agree_ticket : Agree
    (received (tagged.config Renewed.newYear) settled [ticket [0, 9, 9]])
    (received (tagged.config Renewed.newYear) settled (singles (ticket [0, 9, 9]))) := by
  refine (cuts_agree_iff (tagged.config Renewed.newYear) settled (ticket [0, 9, 9])
    (sent_ticket (by decide))).mpr ?_ _ _ ⟨rfl, ?_⟩ (isCut_singles _)
  · intro hacceptable
    decide
  · decide

theorem cuts_disagree_ticket : Small (ticket (List.replicate MAX_HANDSHAKE 0)) ∧
    ¬∀ ps qs, IsCut (ticket (List.replicate MAX_HANDSHAKE 0)) ps →
      IsCut (ticket (List.replicate MAX_HANDSHAKE 0)) qs →
      Agree (received (tagged.config Renewed.newYear) settled ps)
        (received (tagged.config Renewed.newYear) settled qs) := by
  generalize hb : List.replicate MAX_HANDSHAKE (0 : UInt8) = body
  have hlen : body.length = MAX_HANDSHAKE := by rw [← hb, List.length_replicate]
  have hmax : MAX_HANDSHAKE < 256 ^ 3 := by decide
  obtain ⟨-, hw, -⟩ := split_handshakeMessage NEW_SESSION_TICKET (by omega : body.length < 256 ^ 3)
  have hacceptable : Acceptable (tagged.config Renewed.newYear) settled (ticket body) :=
    acceptable_ticket settled_session.1 hlen.le
  obtain ⟨⟨e₁, changed, htaken⟩, -⟩ := id hacceptable
  refine ⟨htaken.small, fun hagree => ?_⟩
  have hmem : ticket body ∈ wholes (ticket body) := by
    rw [ticket, hw]
    exact List.mem_singleton_self _
  have hlong : MAX_HANDSHAKE + 1 < (ticket body).length := by
    rw [length_ticket, hlen]
    omega
  obtain ⟨ps, qs, hps, hqs, hnot⟩ := exists_disagree (sent_ticket hlen.le) hacceptable hmem hlong
  exact hnot (hagree ps qs hps hqs)

end

end Chatlink.Net
