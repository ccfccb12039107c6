import Chatlink.Lib.Transition
import Chatlink.Serve.Shm

/-!
# The response ring, step by step

The daemon appends a message: it waits for room, writes the skip mark if the frame would
run over the end of the ring, copies the frame byte by byte, stores the head, bumps the
sequence number and wakes the client. The client takes the next message: it looks for a
frame below the head, reads its length, copies it byte by byte and advances the tail; if
there is none it loads the sequence number, looks again, and sleeps on the futex as long as
the word is still the one it loaded. Any step of one side may fall between two steps of the
other. Head and tail count bytes from the beginning.

`sent` lists the messages whose head is stored, `finished` those whose append is complete,
`taken` those the client has read.
-/
namespace Chatlink.Serve

open FrameRing Codec

abbrev Msg := List UInt8

/-- Where the daemon is in `Shared::append`. -/
inductive Append where
  | idle
  | waits (msg : Msg) (at_ skip : ℕ)
  | marks (msg : Msg) (at_ skip : ℕ)
  /-- `k` bytes of the frame are written. -/
  | writes (msg : Msg) (at_ k : ℕ)
  | bumps (msg : Msg)
  | wakes (msg : Msg)
  deriving DecidableEq, Repr

/-- Where the client is in `Daemon::next`. -/
inductive Next where
  | top
  | reads (at_ : ℕ)
  | skips (at_ : ℕ)
  | copies (at_ len : ℕ) (got : Msg)
  /-- No frame below the head. -/
  | empty
  | loaded (s : UInt32)
  /-- Still none: about to wait on the futex. -/
  | waits (s : UInt32)
  | asleep
  deriving DecidableEq, Repr

structure Ring where
  mem : Memory := fun _ => 0
  head : ℕ := 0
  tail : ℕ := 0
  seq : UInt32 := 0
  daemon : Append := .idle
  client : Next := .top
  sent : List Msg := []
  finished : List Msg := []
  taken : List Msg := []

inductive Act where
  | append (msg : Msg)
  | gone
  | room
  | mark
  | copy
  | store
  | bump
  | wake
  | look
  | length
  | byte
  | advance
  | load
  | recheck
  | wait
  /-- The wait ends by itself, after its second or for no reason. -/
  | timeout
  deriving DecidableEq, Repr

/-- Whether the ring has room for a frame of `n` bytes behind the skipped ones. -/
def Ring.HasRoom (r : Ring) (at_ skip n : ℕ) : Prop := at_ + skip + n - r.tail ≤ RING_BYTES

instance (r : Ring) (at_ skip n : ℕ) : Decidable (r.HasRoom at_ skip n) :=
  inferInstanceAs (Decidable (_ ≤ _))

/-- The daemon's steps. -/
def stepDaemon (r : Ring) : Act → Option Ring
  | .append msg =>
    match r.daemon with
    | .idle =>
      some { r with daemon := .waits msg r.head (skipBefore r.head (need msg.length)) }
    | _ => none
  | .gone =>
    match r.daemon with
    | .waits msg at_ skip =>
      if r.HasRoom at_ skip (need msg.length) then none else some { r with daemon := .idle }
    | _ => none
  | .room =>
    match r.daemon with
    | .waits msg at_ skip =>
      if r.HasRoom at_ skip (need msg.length) then
        some { r with daemon := .marks msg at_ skip }
      else none
    | _ => none
  | .mark =>
    match r.daemon with
    | .marks msg at_ skip =>
      if skip > 0 then
        some { r with mem := put r.mem (at_ % RING_BYTES) (le 4 WRAP)
                      daemon := .writes msg (at_ + skip) 0 }
      else some { r with daemon := .writes msg at_ 0 }
    | _ => none
  | .copy =>
    match r.daemon with
    | .writes msg at_ k =>
      match (frame msg)[k]? with
      | some b =>
        some { r with mem := put r.mem (at_ % RING_BYTES + k) [b]
                      daemon := .writes msg at_ (k + 1) }
      | none => none
    | _ => none
  | .store =>
    match r.daemon with
    | .writes msg at_ k =>
      if k = 4 + msg.length then
        some { r with head := at_ + need msg.length, daemon := .bumps msg
                      sent := r.sent ++ [msg] }
      else none
    | _ => none
  | .bump =>
    match r.daemon with
    | .bumps msg => some { r with seq := r.seq + 1, daemon := .wakes msg }
    | _ => none
  | .wake =>
    match r.daemon with
    | .wakes msg =>
      some { r with daemon := .idle, finished := r.finished ++ [msg]
                    client := if r.client = .asleep then .top else r.client }
    | _ => none
  | _ => none

/-- The client's steps. -/
def stepClient (r : Ring) : Act → Option Ring
  | .look =>
    match r.client with
    | .top => some { r with client := if r.tail < r.head then .reads r.tail else .empty }
    | _ => none
  | .length =>
    match r.client with
    | .reads at_ =>
      let len := word r.mem (at_ % RING_BYTES)
      some { r with client := if len = WRAP then .skips at_ else .copies at_ len [] }
    | _ => none
  | .byte =>
    match r.client with
    | .copies at_ len got =>
      if got.length < len then
        let b := r.mem (at_ % RING_BYTES + 4 + got.length)
        some { r with client := .copies at_ len (got ++ [b]) }
      else none
    | _ => none
  | .advance =>
    match r.client with
    | .skips at_ =>
      some { r with tail := at_ + RING_BYTES - at_ % RING_BYTES, client := .top }
    | .copies at_ len got =>
      if got.length = len then
        some { r with tail := at_ + need len, client := .top, taken := r.taken ++ [got] }
      else none
    | _ => none
  | .load =>
    match r.client with
    | .empty => some { r with client := .loaded r.seq }
    | _ => none
  | .recheck =>
    match r.client with
    | .loaded s => some { r with client := if r.tail = r.head then .waits s else .top }
    | _ => none
  | .wait =>
    match r.client with
    | .waits s => some { r with client := if r.seq = s then .asleep else .top }
    | _ => none
  | .timeout =>
    match r.client with
    | .asleep => some { r with client := .top }
    | _ => none
  | _ => none

def step (r : Ring) (a : Act) : Option Ring := (stepDaemon r a).or (stepClient r a)

def Ring.initial : Ring := {}

/-! ### What a step can do -/

/-- Every step of either side, with what it tests and what it changes. -/
inductive Effect (r : Ring) : Act → Ring → Prop
  | append {msg : Msg} : r.daemon = .idle → Effect r (.append msg)
      { r with daemon := .waits msg r.head (skipBefore r.head (need msg.length)) }
  | gone {msg : Msg} {at_ skip : ℕ} : r.daemon = .waits msg at_ skip →
      Effect r .gone { r with daemon := .idle }
  | room {msg : Msg} {at_ skip : ℕ} : r.daemon = .waits msg at_ skip →
      r.HasRoom at_ skip (need msg.length) →
      Effect r .room { r with daemon := .marks msg at_ skip }
  | mark {msg : Msg} {at_ skip : ℕ} : r.daemon = .marks msg at_ skip → 0 < skip →
      Effect r .mark { r with mem := put r.mem (at_ % RING_BYTES) (le 4 WRAP)
                              daemon := .writes msg (at_ + skip) 0 }
  | noMark {msg : Msg} {at_ : ℕ} : r.daemon = .marks msg at_ 0 →
      Effect r .mark { r with daemon := .writes msg at_ 0 }
  | copy {msg : Msg} {at_ k : ℕ} {b : UInt8} : r.daemon = .writes msg at_ k →
      (frame msg)[k]? = some b →
      Effect r .copy { r with mem := put r.mem (at_ % RING_BYTES + k) [b]
                              daemon := .writes msg at_ (k + 1) }
  | store {msg : Msg} {at_ : ℕ} : r.daemon = .writes msg at_ (4 + msg.length) →
      Effect r .store { r with head := at_ + need msg.length, daemon := .bumps msg
                               sent := r.sent ++ [msg] }
  | bump {msg : Msg} : r.daemon = .bumps msg →
      Effect r .bump { r with seq := r.seq + 1, daemon := .wakes msg }
  | wake {msg : Msg} : r.daemon = .wakes msg →
      Effect r .wake { r with daemon := .idle, finished := r.finished ++ [msg]
                              client := if r.client = .asleep then .top else r.client }
  | look : r.client = .top → r.tail < r.head → Effect r .look { r with client := .reads r.tail }
  | lookEmpty : r.client = .top → Effect r .look { r with client := .empty }
  | wrap {at_ : ℕ} : r.client = .reads at_ → word r.mem (at_ % RING_BYTES) = WRAP →
      Effect r .length { r with client := .skips at_ }
  | length {at_ : ℕ} : r.client = .reads at_ → word r.mem (at_ % RING_BYTES) ≠ WRAP →
      Effect r .length { r with client := .copies at_ (word r.mem (at_ % RING_BYTES)) [] }
  | byte {at_ len : ℕ} {got : Msg} : r.client = .copies at_ len got → got.length < len →
      Effect r .byte { r with
        client := .copies at_ len (got ++ [r.mem (at_ % RING_BYTES + 4 + got.length)]) }
  | advanceSkip {at_ : ℕ} : r.client = .skips at_ →
      Effect r .advance { r with tail := at_ + RING_BYTES - at_ % RING_BYTES, client := .top }
  | advance {at_ : ℕ} {got : Msg} : r.client = .copies at_ got.length got →
      Effect r .advance { r with tail := at_ + need got.length, client := .top
                                 taken := r.taken ++ [got] }
  | load : r.client = .empty → Effect r .load { r with client := .loaded r.seq }
  | recheck {s : UInt32} : r.client = .loaded s → r.tail = r.head →
      Effect r .recheck { r with client := .waits s }
  | recheckFull {s : UInt32} : r.client = .loaded s → Effect r .recheck { r with client := .top }
  | wait : r.client = .waits r.seq → Effect r .wait { r with client := .asleep }
  | waitOver {s : UInt32} : r.client = .waits s → Effect r .wait { r with client := .top }
  | timeout : r.client = .asleep → Effect r .timeout { r with client := .top }

theorem effect_of_stepDaemon {r r' : Ring} {a : Act} (h : stepDaemon r a = some r') :
    Effect r a r' := by
  cases a with
  | append msg =>
    simp only [stepDaemon] at h
    split at h
    · next hd => exact Option.some.inj h ▸ .append hd
    · cases h
  | gone =>
    simp only [stepDaemon] at h
    split at h
    · next hd =>
      split at h
      · cases h
      · exact Option.some.inj h ▸ .gone hd
    · cases h
  | room =>
    simp only [stepDaemon] at h
    split at h
    · next hd =>
      split at h
      · next hroom => exact Option.some.inj h ▸ .room hd hroom
      · cases h
    · cases h
  | mark =>
    simp only [stepDaemon] at h
    split at h
    · next msg at_ skip hd =>
      split at h
      · next hskip => exact Option.some.inj h ▸ .mark hd hskip
      · next hskip =>
        obtain rfl : skip = 0 := by omega
        exact Option.some.inj h ▸ .noMark hd
    · cases h
  | copy =>
    simp only [stepDaemon] at h
    split at h
    · next hd =>
      split at h
      · next hb => exact Option.some.inj h ▸ .copy hd hb
      · cases h
    · cases h
  | store =>
    simp only [stepDaemon] at h
    split at h
    · next hd =>
      split at h
      · next hk =>
        subst hk
        exact Option.some.inj h ▸ .store hd
      · cases h
    · cases h
  | bump =>
    simp only [stepDaemon] at h
    split at h
    · next hd => exact Option.some.inj h ▸ .bump hd
    · cases h
  | wake =>
    simp only [stepDaemon] at h
    split at h
    · next hd => exact Option.some.inj h ▸ .wake hd
    · cases h
  | _ => cases h

theorem effect_of_stepClient {r r' : Ring} {a : Act} (h : stepClient r a = some r') :
    Effect r a r' := by
  cases a with
  | look =>
    simp only [stepClient] at h
    split at h
    · next hc =>
      split at h
      · next hlt => exact Option.some.inj h ▸ .look hc hlt
      · exact Option.some.inj h ▸ .lookEmpty hc
    · cases h
  | length =>
    simp only [stepClient] at h
    split at h
    · next hc =>
      split at h
      · next hwrap => exact Option.some.inj h ▸ .wrap hc hwrap
      · next hwrap => exact Option.some.inj h ▸ .length hc hwrap
    · cases h
  | byte =>
    simp only [stepClient] at h
    split at h
    · next hc =>
      split at h
      · next hlt => exact Option.some.inj h ▸ .byte hc hlt
      · cases h
    · cases h
  | advance =>
    simp only [stepClient] at h
    split at h
    · next hc => exact Option.some.inj h ▸ .advanceSkip hc
    · next hc =>
      split at h
      · next hlen =>
        subst hlen
        exact Option.some.inj h ▸ .advance hc
      · cases h
    · cases h
  | load =>
    simp only [stepClient] at h
    split at h
    · next hc => exact Option.some.inj h ▸ .load hc
    · cases h
  | recheck =>
    simp only [stepClient] at h
    split at h
    · next hc =>
      split at h
      · next heq => exact Option.some.inj h ▸ .recheck hc heq
      · exact Option.some.inj h ▸ .recheckFull hc
    · cases h
  | wait =>
    simp only [stepClient] at h
    split at h
    · next hc =>
      split at h
      · next hseq =>
        subst hseq
        exact Option.some.inj h ▸ .wait hc
      · exact Option.some.inj h ▸ .waitOver hc
    · cases h
  | timeout =>
    simp only [stepClient] at h
    split at h
    · next hc => exact Option.some.inj h ▸ .timeout hc
    · cases h
  | _ => cases h

theorem effect_of_step {r r' : Ring} {a : Act} (h : step r a = some r') : Effect r a r' := by
  rcases Option.or_eq_some_iff.mp h with hd | ⟨-, hc⟩
  · exact effect_of_stepDaemon hd
  · exact effect_of_stepClient hc

end Chatlink.Serve
