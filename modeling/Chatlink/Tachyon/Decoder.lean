import Mathlib
import Chatlink.Lib.Fallible
import Chatlink.Tachyon.Template

/-!
# A model on the GPU

A decoder feeds tokens at the next positions, a prompt in chunks and then one step at a time.
Steps run ahead: two recordings of the step trade two token words, so that the step on a token
is queued before the token has been read. What the device has been fed, and where, is kept in
`fed`; what it samples is any function of that.

A call of the driver may fail. From then on every call does, as it is with a broken context;
`alive` is the number of calls that still succeed.
-/
namespace Chatlink.Tachyon

open Std.Do
open Serve (F32)

set_option mvcgen.warning false

structure Settings where
  context : ℕ := 4096
  chunk : ℕ := 512
  deriving DecidableEq, Repr

/-- `weights` and `table` are the bytes of its weights in VRAM and of its host table, `shadow`
those of the copy of the weights in pinned memory; `hidden` is the width of an embedding. `pos`
is the position as the CPU counts, `counter` as the device does. -/
structure Decoder where
  weights : ℕ
  table : ℕ
  hidden : ℕ
  shadow : Option ℕ := none
  chunk : ℕ
  /-- The recording `nextToken` waits for is the second. -/
  second : Bool := false
  words : ℕ × ℕ := (0, 0)
  pos : ℕ := 0
  counter : ℕ := 0
  alive : ℕ
  fed : List (ℕ × ℕ) := []
  deriving DecidableEq, Repr

abbrev Gpu := ExceptT Error (StateM Decoder)

namespace Decoder

/-- Token word of a recording. -/
def word (d : Decoder) (g : Bool) : ℕ := if g then d.words.2 else d.words.1

def setWord (g : Bool) (t : ℕ) (d : Decoder) : Decoder :=
  { d with words := if g then (d.words.1, t) else (t, d.words.2) }

/-- A call of the driver. -/
def call : Gpu Unit := do
  let d ← get
  if d.alive = 0 then throw .cuda
  set { d with alive := d.alive - 1 }

variable (sample : List (ℕ × ℕ) → ℕ)

/-- A recorded step runs: it feeds the other recording's word and writes its own. -/
def replay (g : Bool) (d : Decoder) : Decoder :=
  let fed := d.fed ++ [(d.counter, d.word !g)]
  { d.setWord g (sample fed) with counter := d.counter + 1, fed }

def queue (g : Bool) : Gpu Unit := do
  modify fun d => { d with pos := d.pos + 1 }
  call
  modify (replay sample g)
  call

def stop : Gpu Unit := call

/-- A new sequence at position 0. -/
def reset : Gpu Unit := do
  stop
  modify fun d => { d with pos := 0 }
  call
  modify fun d => { d with counter := 0 }

def step (token : ℕ) : Gpu ℕ := do
  modify (setWord true token)
  queue sample false
  call
  return (← get).word false

def start (token : ℕ) : Gpu Unit := do
  modify (setWord true token)
  modify fun d => { d with second := false }
  queue sample false

/-- The token the running step samples; the step on it is queued first. -/
def nextToken : Gpu ℕ := do
  let g := (← get).second
  queue sample (!g)
  call
  modify fun d => { d with second := !g }
  return (← get).word g

/-- `tokens` in chunks of `n`. -/
def chunks (n : ℕ) : ℕ → List ℕ → List (List ℕ)
  | 0, _ => []
  | _, [] => []
  | fuel + 1, tokens => tokens.take n :: chunks n fuel (tokens.drop n)

/-- Feeds a chunk at the device's positions. -/
def feedChunk (part : List ℕ) (d : Decoder) : Decoder :=
  { d with fed := d.fed ++ (part.zipIdx d.counter).map Prod.swap, pos := d.pos + part.length }

/-- The tokens of a prompt as the device gets them: the pad token where rows of soft tokens go. -/
def stage (hidden : ℕ) (tokens : List ℕ) (soft : List (ℕ × List F32)) : List ℕ :=
  tokens.zipIdx.map fun t =>
    if soft.any fun s => s.1 ≤ t.2 ∧ t.2 < s.1 + s.2.length / hidden then 0 else t.1

def prefillParts : List (List ℕ) → Gpu Unit
  | [] => pure ()
  | part :: rest => do
    call
    modify (feedChunk part)
    call
    modify fun d => { d with counter := d.pos }
    call
    prefillParts rest

def prefillWith (tokens : List ℕ) (soft : List (ℕ × List F32)) : Gpu Unit := do
  let d ← get
  prefillParts (chunks d.chunk tokens.length (stage d.hidden tokens soft))

/-- Feeds a prompt from the start and begins the answer; returns its first token. -/
def feed (prompt : List ℕ) (soft : List (ℕ × List F32)) : Gpu ℕ := do
  reset
  prefillWith prompt.dropLast soft
  let first ← step sample (prompt.getLastD 0)
  start sample first
  return first

/-! ### Where tokens are fed -/

/-- What no call changes: the bytes of the weights and of their copy. -/
def shape (d : Decoder) : ℕ × Option ℕ := (d.weights, d.shadow)

/-- Of shape `c`, and nothing was fed at position `n` or beyond. -/
def Within (n : ℕ) (c : ℕ × Option ℕ) (d : Decoder) : Prop := (∀ p ∈ d.fed, p.1 < n) ∧ d.shape = c

/-- No call goes through any more. -/
def Stuck (n : ℕ) (c : ℕ × Option ℕ) (d : Decoder) : Prop := d.alive = 0 ∧ d.Within n c

/-- The next position is `p` at most. -/
def At (n : ℕ) (c : ℕ × Option ℕ) (p : ℕ) (d : Decoder) : Prop :=
  d.pos ≤ p ∧ d.counter ≤ p ∧ d.Within n c

/-- The next position is `p` at most, if there is one. -/
def Next (n : ℕ) (c : ℕ × Option ℕ) (p : ℕ) (d : Decoder) : Prop := d.At n c p ∨ d.Stuck n c

variable {sample} {n p : ℕ} {c : ℕ × Option ℕ} {d : Decoder}

theorem At.mono {q : ℕ} (h : d.At n c p) (hpq : p ≤ q) : d.At n c q :=
  ⟨h.1.trans hpq, h.2.1.trans hpq, h.2.2⟩

theorem Next.mono {q : ℕ} (h : d.Next n c p) (hpq : p ≤ q) : d.Next n c q :=
  h.imp_left fun hat => hat.mono hpq

theorem Next.within (h : d.Next n c p) : d.Within n c := by
  rcases h with h | h
  · exact h.2.2
  · exact h.2

theorem Next.at_ (h : d.Next n c p) (ha : d.alive ≠ 0) : d.At n c p := by
  rcases h with h | h
  · exact h
  · exact absurd h.1 ha

theorem within_replay (sample : List (ℕ × ℕ) → ℕ) (g : Bool) (h : d.At n c p) (hp : p < n) :
    (replay sample g d).Within n c := by
  refine ⟨fun q hq => ?_, h.2.2.2⟩
  rcases List.mem_append.mp hq with hq | hq
  · exact h.2.2.1 q hq
  · obtain rfl := List.mem_singleton.mp hq
    exact h.2.1.trans_lt hp

theorem within_feedChunk {part : List ℕ} (h : d.At n c p) (hp : p + part.length ≤ n) :
    (feedChunk part d).Within n c := by
  refine ⟨fun q hq => ?_, h.2.2.2⟩
  rcases List.mem_append.mp hq with hq | hq
  · exact h.2.2.1 q hq
  · obtain ⟨⟨t, i⟩, hmem, rfl⟩ := List.mem_map.mp hq
    have hi := (List.mem_zipIdx hmem).2.1
    have hc := h.2.1
    change i < n
    omega

theorem queue_spec (h : p < n) (g : Bool) :
    ⦃fun d => ⌜d.Next n c p⌝⦄ queue sample g
    ⦃post⟨fun _ d => ⌜d.At n c (p + 1)⌝, fun _ d => ⌜d.Stuck n c⌝⟩⦄ := by
  mvcgen [queue, call]
  · have hwithin := ‹Next n c p _›.within
    exact ⟨‹_›, hwithin⟩
  · have hat := ‹Next n c p _›.at_ ‹_›
    have hreplay := within_replay sample g hat h
    exact ⟨‹_›, hreplay⟩
  · have hat := ‹Next n c p _›.at_ ‹_›
    have hreplay := within_replay sample g hat h
    refine ⟨?_, ?_, hreplay⟩
    · exact Nat.succ_le_succ hat.1
    · exact Nat.succ_le_succ hat.2.1

theorem stop_spec :
    ⦃fun d => ⌜d.Within n c⌝⦄ stop
    ⦃post⟨fun _ d => ⌜d.Within n c⌝, fun _ d => ⌜d.Within n c⌝⟩⦄ := by
  mvcgen [stop, call]

theorem reset_spec :
    ⦃fun d => ⌜d.Within n c⌝⦄ reset
    ⦃post⟨fun _ d => ⌜d.At n c 0⌝, fun _ d => ⌜d.Within n c⌝⟩⦄ := by
  mvcgen [reset, stop, call]

theorem step_spec (h : p < n) (token : ℕ) :
    ⦃fun d => ⌜d.At n c p⌝⦄ step sample token
    ⦃post⟨fun _ d => ⌜d.At n c (p + 1)⌝, fun _ d => ⌜d.Within n c⌝⟩⦄ := by
  have hqueue := @queue_spec sample n p c h false
  mvcgen [step, hqueue, call]
  · exact .inl ‹At n c p _›
  · exact ‹At n c (p + 1) _›.2.2
  · exact fun hstuck => hstuck.2

theorem start_spec (h : p < n) (token : ℕ) :
    ⦃fun d => ⌜d.At n c p⌝⦄ start sample token
    ⦃post⟨fun _ d => ⌜d.At n c (p + 1)⌝, fun _ d => ⌜d.Within n c⌝⟩⦄ := by
  have hqueue := @queue_spec sample n p c h false
  mvcgen [start, hqueue]
  · exact .inl ‹At n c p _›
  · exact fun hat => hat
  · exact fun hstuck => hstuck.2

theorem nextToken_spec (h : p < n) :
    ⦃fun d => ⌜d.Next n c p⌝⦄ nextToken sample
    ⦃post⟨fun _ d => ⌜d.At n c (p + 1)⌝, fun _ d => ⌜d.Stuck n c⌝⟩⦄ := by
  have hqueue := @queue_spec sample n p c h
  mvcgen [nextToken, hqueue, call]
  exact ⟨‹_›, ‹At n c (p + 1) _›.2.2⟩

theorem prefillParts_spec (parts : List (List ℕ)) (h : p + parts.flatten.length ≤ n) :
    ⦃fun d => ⌜d.At n c p⌝⦄ prefillParts parts
    ⦃post⟨fun _ d => ⌜d.At n c (p + parts.flatten.length)⌝, fun _ d => ⌜d.Within n c⌝⟩⦄ := by
  induction parts generalizing p with
  | nil => mvcgen [prefillParts]
  | cons part parts ih =>
    rw [List.flatten_cons, List.length_append] at h ⊢
    have hrest := @ih (p + part.length) (by omega)
    rw [Nat.add_assoc] at hrest
    have hfits : p + part.length ≤ n := by omega
    mvcgen [prefillParts, hrest, call]
    all_goals have hat := ‹At n c p _›
    · exact hat.2.2
    · exact within_feedChunk hat hfits
    · exact within_feedChunk hat hfits
    · refine ⟨Nat.add_le_add_right hat.1 _, Nat.add_le_add_right hat.1 _, ?_⟩
      exact within_feedChunk hat hfits

theorem length_flatten_chunks (n fuel : ℕ) (tokens : List ℕ) :
    (chunks n fuel tokens).flatten.length ≤ tokens.length := by
  induction fuel generalizing tokens with
  | zero => exact Nat.zero_le _
  | succ fuel ih =>
    cases tokens with
    | nil => exact Nat.zero_le _
    | cons t tokens =>
      have hrest := ih ((t :: tokens).drop n)
      rw [List.length_drop] at hrest
      rw [chunks, List.flatten_cons, List.length_append, List.length_take]
      · omega
      · simp

theorem length_stage (hidden : ℕ) (tokens : List ℕ) (soft : List (ℕ × List F32)) :
    (stage hidden tokens soft).length = tokens.length := by
  simp [stage]

theorem prefillWith_spec (tokens : List ℕ) (soft : List (ℕ × List F32))
    (h : p + tokens.length ≤ n) :
    ⦃fun d => ⌜d.At n c p⌝⦄ prefillWith tokens soft
    ⦃post⟨fun _ d => ⌜d.At n c (p + tokens.length)⌝, fun _ d => ⌜d.Within n c⌝⟩⦄ := by
  have hle : ∀ size hidden, (chunks size tokens.length (stage hidden tokens soft)).flatten.length ≤
      tokens.length := by
    intro size hidden
    exact (length_flatten_chunks _ _ _).trans (length_stage hidden tokens soft).le
  have hparts := fun size hidden =>
    @prefillParts_spec n p c (chunks size tokens.length (stage hidden tokens soft))
      ((Nat.add_le_add_left (hle size hidden) p).trans h)
  mvcgen [prefillWith, hparts]
  exact fun hat => hat.mono (Nat.add_le_add_left (hle _ _) p)

/-- Whatever comes of it, a prompt is fed below the context it fits in, and the step on the first
token of the answer is the last there is room for without another. -/
theorem feed_spec (prompt : List ℕ) (soft : List (ℕ × List F32)) (hne : prompt ≠ [])
    (h : prompt.length < n) :
    ⦃fun d => ⌜d.Within n c⌝⦄ feed sample prompt soft
    ⦃post⟨fun _ d => ⌜d.At n c (prompt.length + 1)⌝, fun _ d => ⌜d.Within n c⌝⟩⦄ := by
  have hlength : prompt.dropLast.length + 1 = prompt.length := by
    have hpos := List.length_pos_iff.mpr hne
    rw [List.length_dropLast]
    omega
  have hreset := @reset_spec n c
  have hprefill := @prefillWith_spec n 0 c prompt.dropLast soft (by omega)
  have hstep := fun token => @step_spec sample n (0 + prompt.dropLast.length) c (by omega) token
  have hstart := fun token =>
    @start_spec sample n (0 + prompt.dropLast.length + 1) c (by omega) token
  mvcgen [feed, hreset, hprefill, hstep, hstart]
  exact ‹At n c _ _›.mono (by omega)

end Decoder

end Chatlink.Tachyon
