import Chatlink.Serve.Fifo

/-!
# No wake-up is lost

The sequence number counts the appends, modulo 2^32. A client that goes to sleep found the
ring empty after it had loaded the number, and the number has not changed since: it cannot
have gone round, because the ring holds far fewer messages than that. What is appended later
ends with a wake-up.
-/
namespace Chatlink.Serve

open FrameRing Transition

/-- How often the sequence number was bumped. -/
def Ring.bumped (r : Ring) : ℕ :=
  match r.daemon with
  | .bumps _ => r.finished.length
  | _ => r.sent.length

/-- Messages whose head is stored and whose append is not complete: at most the last. -/
def Ring.InFlight (r : Ring) : Prop :=
  match r.daemon with
  | .bumps msg | .wakes msg => r.sent = r.finished ++ [msg]
  | _ => r.sent = r.finished

/-- What the client knows of the number it loaded: `n` is how often it was bumped then. -/
def ClientAwake (r : Ring) : Next → Prop
  | .loaded s => ∃ n, s = UInt32.ofNat n ∧ n ≤ r.bumped ∧ r.taken.length ≤ n + 1
  | .waits s => ∃ n, s = UInt32.ofNat n ∧ n ≤ r.bumped ∧ r.taken.length ≤ n + 1 ∧
      n ≤ r.taken.length
  | .asleep => r.finished.length ≤ r.taken.length
  | _ => True

structure Wakeful (r : Ring) : Prop where
  seq : r.seq = UInt32.ofNat r.bumped
  inFlight : r.InFlight
  client : ClientAwake r r.client

theorem wakeful_initial : Wakeful Ring.initial := ⟨rfl, rfl, trivial⟩

section

variable {r r' : Ring} {a : Act}

theorem Wakeful.finished_prefix (h : Wakeful r) : r.finished <+: r.sent := by
  have hin := h.inFlight
  unfold Ring.InFlight at hin
  split at hin <;> rw [hin]
  · exact List.prefix_append _ _
  · exact List.prefix_append _ _

theorem Wakeful.finished_le_bumped (h : Wakeful r) : r.finished.length ≤ r.bumped := by
  have hle := h.finished_prefix.length_le
  unfold Ring.bumped
  split <;> omega

/-- At most one append is published and not yet counted. -/
theorem Wakeful.sent_le (h : Wakeful r) : r.sent.length ≤ r.bumped + 1 ∧ r.bumped ≤ r.sent.length := by
  have hin := h.inFlight
  unfold Ring.InFlight at hin
  unfold Ring.bumped
  cases hd : r.daemon with
  | bumps msg =>
    rw [hd] at hin
    simp only at hin ⊢
    rw [hin, List.length_append, List.length_singleton]
    omega
  | _ => simp

/-- The ring holds at most one message for every 8 bytes. -/
theorem Sound.unread_le (h : Sound r) :
    r.taken.length ≤ r.sent.length ∧ r.sent.length ≤ r.taken.length + 2 ^ 17 := by
  obtain ⟨ms, hsent, hlayout⟩ := h.unread
  have hlength := hlayout.length_le
  have hoccupied := h.occupied
  have hring : RING_BYTES = 2 ^ 20 := rfl
  rw [hsent, List.length_append]
  omega

/-- Numbers less than 2^32 apart are told apart. -/
theorem ofNat_inj_of_lt {m n : ℕ} (hle : m ≤ n) (hlt : n < m + 2 ^ 32)
    (h : UInt32.ofNat n = UInt32.ofNat m) : n = m := by
  have hmod : n % 2 ^ 32 = m % 2 ^ 32 := congrArg UInt32.toNat h
  omega

/-- Nothing is published that is not also counted and woken for. -/
def Append.Quiet : Append → Prop
  | .bumps _ | .wakes _ => False
  | _ => True

theorem bumped_of_quiet (h : r.daemon.Quiet) : r.bumped = r.sent.length := by
  unfold Ring.bumped
  cases hd : r.daemon with
  | bumps msg => rw [hd] at h; exact h.elim
  | _ => rfl

theorem inFlight_of_quiet (h : r.daemon.Quiet) : r.InFlight ↔ r.sent = r.finished := by
  unfold Ring.InFlight
  cases hd : r.daemon with
  | bumps msg => rw [hd] at h; exact h.elim
  | wakes msg => rw [hd] at h; exact h.elim
  | _ => exact Iff.rfl

/-- More bumps change nothing for the client. -/
theorem ClientAwake.mono {c : Next} (h : ClientAwake r c) (hb : r.bumped ≤ r'.bumped)
    (ht : r'.taken = r.taken) (hf : r'.finished = r.finished) : ClientAwake r' c := by
  cases c with
  | loaded s =>
    obtain ⟨n, hn, hle, hlast⟩ := h
    exact ⟨n, hn, hle.trans hb, by rwa [ht]⟩
  | waits s =>
    obtain ⟨n, hn, hle, hlast, hall⟩ := h
    exact ⟨n, hn, hle.trans hb, by rwa [ht], by rwa [ht]⟩
  | asleep =>
    change r'.finished.length ≤ r'.taken.length
    rw [ht, hf]
    exact h
  | _ => trivial

/-- The daemon moves on before it publishes. -/
theorem Wakeful.moves (h : Wakeful r) {d : Append} (mem : Memory) (hd : r.daemon.Quiet)
    (hd' : d.Quiet) : Wakeful { r with mem := mem, daemon := d } := by
  have hb : r.bumped = Ring.bumped { r with mem := mem, daemon := d } :=
    (bumped_of_quiet hd).trans (bumped_of_quiet (r := { r with mem := mem, daemon := d }) hd').symm
  refine ⟨h.seq.trans (congrArg UInt32.ofNat hb), ?_, h.client.mono hb.le rfl rfl⟩
  exact (inFlight_of_quiet (r := { r with mem := mem, daemon := d }) hd').mpr
    ((inFlight_of_quiet hd).mp h.inFlight)

/-- The word is still the one that was loaded: the client is up to date with every append
that is complete. -/
theorem Wakeful.finished_le_taken (hs : Sound r) (h : Wakeful r) (hc : r.client = .waits r.seq) :
    r.finished.length ≤ r.taken.length := by
  obtain ⟨n, hn, hle, hlast, hall⟩ : ClientAwake r (.waits r.seq) := hc ▸ h.client
  have hfinished := h.finished_le_bumped
  have hunread := hs.unread_le
  have hsent := h.sent_le
  have hsame : r.bumped = n := ofNat_inj_of_lt hle (by omega) (h.seq.symm.trans hn)
  omega

theorem Wakeful.step (hs : Sound r) (h : Wakeful r) (he : Effect r a r') : Wakeful r' := by
  cases he with
  | append hd => exact h.moves r.mem (by rw [hd]; trivial) trivial
  | gone hd => exact h.moves r.mem (by rw [hd]; trivial) trivial
  | room hd hroom => exact h.moves r.mem (by rw [hd]; trivial) trivial
  | mark hd hskip => exact h.moves _ (by rw [hd]; trivial) trivial
  | noMark hd => exact h.moves r.mem (by rw [hd]; trivial) trivial
  | copy hd hb => exact h.moves _ (by rw [hd]; trivial) trivial
  | @store msg at_ hd =>
    have hquiet : r.daemon.Quiet := by rw [hd]; trivial
    have hsent : r.sent = r.finished := (inFlight_of_quiet hquiet).mp h.inFlight
    have hb : r.bumped = r.finished.length := by rw [bumped_of_quiet hquiet, hsent]
    refine ⟨h.seq.trans (congrArg UInt32.ofNat hb), congrArg (· ++ [msg]) hsent, ?_⟩
    exact h.client.mono hb.le rfl rfl
  | @bump msg hd =>
    have hin : r.sent = r.finished ++ [msg] := by
      have hin := h.inFlight
      rwa [Ring.InFlight, hd] at hin
    have hb : r.bumped = r.finished.length := by rw [Ring.bumped, hd]
    have hnext : r.sent.length = r.bumped + 1 := by simp [hin, hb]
    have hle : r.bumped ≤ r.sent.length := by omega
    refine ⟨?_, hin, h.client.mono hle rfl rfl⟩
    change r.seq + 1 = UInt32.ofNat r.sent.length
    rw [h.seq, hnext, UInt32.ofNat_add]
    rfl
  | @wake msg hd =>
    have hin : r.sent = r.finished ++ [msg] := by
      have hin := h.inFlight
      rwa [Ring.InFlight, hd] at hin
    have hb : r.bumped = r.sent.length := by rw [Ring.bumped, hd]
    refine ⟨h.seq.trans (congrArg UInt32.ofNat hb), hin, ?_⟩
    -- whoever slept is awake; the others do not look at the completed appends
    have hc := h.client
    cases hclient : r.client with
    | loaded s =>
      obtain ⟨n, hn, hle, hlast⟩ : ClientAwake r (.loaded s) := hclient ▸ hc
      exact ⟨n, hn, hle.trans hb.le, hlast⟩
    | waits s =>
      obtain ⟨n, hn, hle, hlast, hall⟩ : ClientAwake r (.waits s) := hclient ▸ hc
      exact ⟨n, hn, hle.trans hb.le, hlast, hall⟩
    | _ => trivial
  | load hc =>
    have hsent := h.sent_le
    have hunread := hs.unread_le
    have htaken : r.taken.length ≤ r.bumped + 1 := by omega
    exact ⟨h.seq, h.inFlight, r.bumped, h.seq, le_rfl, htaken⟩
  | @recheck s hc heq =>
    obtain ⟨n, hn, hle, hlast⟩ : ClientAwake r (.loaded s) := hc ▸ h.client
    have hall : n ≤ r.taken.length := by
      rw [hs.taken_eq heq]
      exact hle.trans h.sent_le.2
    exact ⟨h.seq, h.inFlight, n, hn, hle, hlast, hall⟩
  | wait hc =>
    have hle := h.finished_le_taken hs hc
    exact ⟨h.seq, h.inFlight, hle⟩
  | _ => exact ⟨h.seq, h.inFlight, trivial⟩

end

theorem wakeful_of_reachable {r : Ring} (h : Reachable step Libre Ring.initial r) : Wakeful r :=
  h.invariant_with (fun _ => sound_of_reachable) wakeful_initial
    fun _ _ _ hs _ hstep hi => hi.step hs (effect_of_step hstep)

/-- A client asleep on the futex has read every message whose append is complete. -/
theorem no_lost_wakeup {r : Ring} (h : Reachable step Libre Ring.initial r)
    (hc : r.client = .asleep) : r.finished <+: r.taken := by
  have hw := wakeful_of_reachable h
  obtain ⟨ms, hsent, -⟩ := (sound_of_reachable h).unread
  have hlength : r.finished.length ≤ r.taken.length := by
    have hclient := hw.client
    rwa [hc] at hclient
  exact List.prefix_of_prefix_length_le hw.finished_prefix ⟨ms, hsent.symm⟩ hlength

/-- A message is read, the client sleeps, and the next append has got as far as its head. -/
def asleepInAppend : List Act :=
  oneMessage ++ [.look, .load, .recheck, .append [4], .room, .mark] ++ List.replicate 5 .copy ++
    [.store, .wait]

theorem no_lost_wakeup_inAppend : ∃ r, run step Ring.initial asleepInAppend = some r ∧
    r.client = .asleep ∧ r.finished <+: r.taken := by
  have hrun : ((run step Ring.initial asleepInAppend).map Ring.client) = some .asleep := by
    decide
  obtain ⟨r, hr, hasleep⟩ := Option.map_eq_some_iff.mp hrun
  have hreach : Reachable step Libre Ring.initial r := by
    have h := reachable_run asleepInAppend (Option.isSome_of_eq_some hr)
    rwa [Option.get_of_eq_some _ hr] at h
  exact ⟨r, hr, hasleep, no_lost_wakeup hreach hasleep⟩

end Chatlink.Serve
