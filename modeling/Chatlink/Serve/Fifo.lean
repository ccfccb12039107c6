import Chatlink.Serve.Ring

/-!
# The ring is a queue

Between tail and head the ring holds the frames of the messages that are sent and not
taken, and the daemon writes only where they are not. Every step of either side keeps this,
so the client reads what was appended, in order and byte for byte.
-/
namespace Chatlink.Serve

open FrameRing Codec Transition

/-- What the daemon has checked and written, wherever it is in an append. -/
def DaemonOk (mem : Memory) (tail head : ℕ) : Append → Prop
  | .waits msg at_ skip => at_ = head ∧ skip = skipBefore head (need msg.length)
  | .marks msg at_ skip => at_ = head ∧ skip = skipBefore head (need msg.length) ∧
      head + skip + need msg.length ≤ tail + RING_BYTES
  | .writes msg at_ k => head ≤ at_ ∧ 8 ∣ at_ ∧ Layout RING_BYTES mem head at_ [] ∧
      at_ % RING_BYTES + need msg.length ≤ RING_BYTES ∧
      at_ + need msg.length ≤ tail + RING_BYTES ∧ k ≤ (frame msg).length ∧
      slice mem (at_ % RING_BYTES) k = (frame msg).take k
  | _ => True

/-- What the client has seen of the frame it is at. -/
def ClientOk (mem : Memory) (tail head : ℕ) : Next → Prop
  | .reads at_ => at_ = tail ∧ tail < head
  | .skips at_ => at_ = tail ∧ tail % RING_BYTES + 4 ≤ RING_BYTES ∧ tail + 4 ≤ head ∧
      word mem (tail % RING_BYTES) = WRAP
  | .copies at_ len got => at_ = tail ∧ tail % RING_BYTES + (4 + len) ≤ RING_BYTES ∧
      tail + (4 + len) ≤ head ∧ word mem (tail % RING_BYTES) = len ∧ len ≠ WRAP ∧
      got.length ≤ len ∧ got = slice mem (tail % RING_BYTES + 4) got.length
  | _ => True

/-- The ring holds the messages between `taken` and `sent`. -/
structure Sound (r : Ring) : Prop where
  aligned : 8 ∣ r.head
  occupied : r.head ≤ r.tail + RING_BYTES
  unread : ∃ ms, r.sent = r.taken ++ ms ∧ Layout RING_BYTES r.mem r.tail r.head ms
  daemon : DaemonOk r.mem r.tail r.head r.daemon
  client : ClientOk r.mem r.tail r.head r.client

theorem sound_initial : Sound Ring.initial where
  aligned := dvd_zero 8
  occupied := Nat.zero_le _
  unread := ⟨[], rfl, .done 0⟩
  daemon := trivial
  client := trivial

section

variable {r r' : Ring} {a : Act} {mem mem' : Memory} {tail tail' head head' : ℕ}

theorem Sound.tail_le (h : Sound r) : r.tail ≤ r.head := by
  obtain ⟨ms, -, hlayout⟩ := h.unread
  exact hlayout.le

/-- The daemon's part does not depend on what the client frees meanwhile. -/
theorem DaemonOk.freed {d : Append} (h : DaemonOk mem tail head d) (ht : tail ≤ tail') :
    DaemonOk mem tail' head d := by
  cases d with
  | marks msg at_ skip =>
    obtain ⟨hat, hskip, hroom⟩ := h
    exact ⟨hat, hskip, by omega⟩
  | writes msg at_ k =>
    obtain ⟨hle, hdvd, hgap, hfit, hroom, hwritten⟩ := h
    exact ⟨hle, hdvd, hgap, hfit, by omega, hwritten⟩
  | _ => exact h

/-- The client's part does not depend on what the daemon writes elsewhere. -/
theorem ClientOk.kept {c : Next} (h : ClientOk mem tail head c)
    (hkept : Kept RING_BYTES mem mem' tail head) (hh : head ≤ head') :
    ClientOk mem' tail head' c := by
  cases c with
  | reads at_ => exact ⟨h.1, h.2.trans_le hh⟩
  | skips at_ =>
    obtain ⟨hat, hfit, hle, hword⟩ := h
    have hsame : word mem' (tail % RING_BYTES) = word mem (tail % RING_BYTES) := by
      rw [word, word, hkept.slice le_rfl hle hfit]
    exact ⟨hat, hfit, by omega, hsame.trans hword⟩
  | copies at_ len got =>
    obtain ⟨hat, hfit, hle, hword, hwrap, hlen, hgot⟩ := h
    have hslice := hkept.slice le_rfl (n := 4 + got.length) (by omega) (by omega)
    rw [slice_add, slice_add] at hslice
    obtain ⟨hhead, hbody⟩ := List.append_inj hslice (by simp)
    have hsame : word mem' (tail % RING_BYTES) = word mem (tail % RING_BYTES) := by
      rw [word, word, hhead]
    exact ⟨hat, hfit, by omega, hsame.trans hword, hwrap, hlen, hgot.trans hbody.symm⟩
  | _ => trivial

/-- The mark fits: a frame that has to be moved leaves at least 8 bytes of the ring. -/
theorem mark_fits {n : ℕ} (hd : 8 ∣ head) (h : 0 < skipBefore head n) :
    head % RING_BYTES + 4 ≤ RING_BYTES ∧ 4 ≤ skipBefore head n ∧
      8 ∣ head + skipBefore head n := by
  rw [skipBefore_pos h]
  unfold RING_BYTES
  omega

/-- Once the skip is dealt with the frame fits before the end of the ring, and what lies
between it and the head is skipped by a reader. -/
theorem daemonOk_writes {msg : Msg} {at_ : ℕ} (hle : head ≤ at_) (hd : 8 ∣ at_)
    (hgap : Layout RING_BYTES mem head at_ [])
    (hfit : at_ % RING_BYTES + need msg.length ≤ RING_BYTES)
    (hroom : at_ + need msg.length ≤ tail + RING_BYTES) :
    DaemonOk mem tail head (.writes msg at_ 0) :=
  ⟨hle, hd, hgap, hfit, hroom, Nat.zero_le _, rfl⟩

/-- What the daemon writes lies outside of the unread frames. -/
theorem Sound.kept (h : Sound r) (he : Effect r a r') :
    Kept RING_BYTES r.mem r'.mem r.tail r.head := by
  cases he with
  | @mark msg at_ skip hd hskip =>
    obtain ⟨rfl, rfl, hroom⟩ : DaemonOk r.mem r.tail r.head (.marks msg at_ skip) := hd ▸ h.daemon
    obtain ⟨hfit, hfour, -⟩ := mark_fits h.aligned hskip
    exact kept_put (by simpa using hfit) le_rfl (by rw [length_le]; omega)
  | @copy msg at_ k b hd hb =>
    obtain ⟨hle, -, -, hfit, hroom, -, -⟩ : DaemonOk r.mem r.tail r.head (.writes msg at_ k) :=
      hd ▸ h.daemon
    have hk : k < (frame msg).length := (List.getElem?_eq_some_iff.mp hb).1
    have hneed := le_need msg.length
    rw [length_frame] at hk
    have hindex : at_ % RING_BYTES + k = (at_ + k) % RING_BYTES := (index_add (by omega)).symm
    have hput : Kept RING_BYTES r.mem (put r.mem ((at_ + k) % RING_BYTES) [b]) r.tail r.head :=
      kept_put (by simp; omega) (by omega) (by simp; omega)
    rwa [← hindex] at hput
  | _ => exact Kept.refl _ _ _ _

theorem Sound.daemon_step (h : Sound r) (he : Effect r a r') :
    DaemonOk r'.mem r'.tail r'.head r'.daemon := by
  cases he with
  | append hd => exact ⟨rfl, rfl⟩
  | gone hd => trivial
  | @room msg at_ skip hd hroom =>
    obtain ⟨rfl, rfl⟩ : DaemonOk r.mem r.tail r.head (.waits msg at_ skip) := hd ▸ h.daemon
    unfold Ring.HasRoom at hroom
    refine ⟨rfl, rfl, ?_⟩
    dsimp only
    omega
  | @mark msg at_ skip hd hskip =>
    obtain ⟨rfl, rfl, hroom⟩ : DaemonOk r.mem r.tail r.head (.marks msg at_ skip) := hd ▸ h.daemon
    have htail := h.tail_le
    obtain ⟨hfit, -, hdvd⟩ := mark_fits h.aligned hskip
    have hword : word (put r.mem (r.head % RING_BYTES) (le 4 WRAP)) (r.head % RING_BYTES) = mark := by
      have hslice := slice_put r.mem (r.head % RING_BYTES) (le 4 WRAP)
      rw [length_le] at hslice
      rw [word, hslice]
      exact ofLe_le_of_lt (by decide)
    refine daemonOk_writes (Nat.le_add_right _ _) hdvd ?_ (fits_after_skip (by omega)) hroom
    refine .skip hfit hword ?_
    rw [skipBefore_pos hskip]
    exact .done _
  | @noMark msg at_ hd =>
    obtain ⟨rfl, hskip, hroom⟩ : DaemonOk r.mem r.tail r.head (.marks msg at_ 0) := hd ▸ h.daemon
    exact daemonOk_writes le_rfl h.aligned (.done _) (skipBefore_zero hskip.symm) hroom
  | @copy msg at_ k b hd hb =>
    have htail := h.tail_le
    obtain ⟨hle, hdvd, hgap, hfit, hroom, -, hwritten⟩ :
      DaemonOk r.mem r.tail r.head (.writes msg at_ k) := hd ▸ h.daemon
    obtain ⟨hk, hget⟩ := List.getElem?_eq_some_iff.mp hb
    have hneed := le_need msg.length
    have hlength := length_frame msg
    have hindex : (at_ + k) % RING_BYTES = at_ % RING_BYTES + k := index_add (by omega)
    have hkept : Kept RING_BYTES r.mem (put r.mem ((at_ + k) % RING_BYTES) [b]) r.head at_ :=
      kept_put (by simp; omega) (by omega) (by simp; omega)
    rw [hindex] at hkept
    have hbefore : slice (put r.mem (at_ % RING_BYTES + k) [b]) (at_ % RING_BYTES) k =
        slice r.mem (at_ % RING_BYTES) k :=
      slice_congr fun j hj => put_of_lt (.inl (by omega))
    have hhere : put r.mem (at_ % RING_BYTES + k) [b] (at_ % RING_BYTES + k) = b := by
      simp [put]
    refine ⟨hle, hdvd, hgap.congr hkept, hfit, hroom, hk, ?_⟩
    dsimp only
    rw [slice_succ, hbefore, hhere, hwritten, List.take_succ_eq_append_getElem hk, hget]
  | store hd => trivial
  | bump hd => trivial
  | wake hd => trivial
  | @advanceSkip at_ hc =>
    obtain ⟨rfl, -⟩ : ClientOk r.mem r.tail r.head (.skips at_) := hc ▸ h.client
    refine h.daemon.freed ?_
    have hlt : r.tail % RING_BYTES < RING_BYTES := Nat.mod_lt _ (by decide)
    change r.tail ≤ r.tail + RING_BYTES - r.tail % RING_BYTES
    omega
  | @advance at_ got hc =>
    obtain ⟨rfl, -⟩ : ClientOk r.mem r.tail r.head (.copies at_ got.length got) := hc ▸ h.client
    exact h.daemon.freed (Nat.le_add_right _ _)
  | _ => exact h.daemon

theorem Sound.client_step (h : Sound r) (he : Effect r a r') :
    ClientOk r'.mem r'.tail r'.head r'.client := by
  have hkept := h.kept he
  cases he with
  | append | gone | room | noMark | bump => exact h.client
  | mark hd hskip => exact h.client.kept hkept le_rfl
  | copy hd hb => exact h.client.kept hkept le_rfl
  | @store msg at_ hd =>
    obtain ⟨hle, -⟩ : DaemonOk r.mem r.tail r.head (.writes msg at_ (4 + msg.length)) :=
      hd ▸ h.daemon
    exact h.client.kept hkept (hle.trans (Nat.le_add_right _ _))
  | wake hd =>
    simp only
    split
    · trivial
    · exact h.client
  | look hc hlt => exact ⟨rfl, hlt⟩
  | @wrap at_ hc hword =>
    obtain ⟨rfl, hlt⟩ : ClientOk r.mem r.tail r.head (.reads at_) := hc ▸ h.client
    obtain ⟨ms, -, hlayout⟩ := h.unread
    cases hlayout.first (by decide) hlt with
    | skip hfit hle hmark hrest => exact ⟨rfl, hfit, hle, hmark⟩
    | frame m ns hms hfit hle hlen hmark hslice hrest => exact absurd (hlen.symm.trans hword) hmark
  | @length at_ hc hword =>
    obtain ⟨rfl, hlt⟩ : ClientOk r.mem r.tail r.head (.reads at_) := hc ▸ h.client
    obtain ⟨ms, -, hlayout⟩ := h.unread
    cases hlayout.first (by decide) hlt with
    | skip hfit hle hmark hrest => exact absurd hmark hword
    | frame m ns hms hfit hle hlen hmark hslice hrest =>
      rw [← hlen] at hfit hle hmark
      exact ⟨rfl, hfit, hle, rfl, hmark, Nat.zero_le _, rfl⟩
  | @byte at_ len got hc hlt =>
    obtain ⟨rfl, hfit, hle, hlen, hwrap, -, hgot⟩ :
      ClientOk r.mem r.tail r.head (.copies at_ len got) := hc ▸ h.client
    refine ⟨rfl, hfit, hle, hlen, hwrap, by simpa using hlt, ?_⟩
    rw [List.length_append, List.length_singleton, slice_succ, ← hgot]
  | _ => trivial

/-- What is left to read, and that its frames stand between tail and head. -/
theorem Sound.unread_step (h : Sound r) (he : Effect r a r') :
    ∃ ms, r'.sent = r'.taken ++ ms ∧ Layout RING_BYTES r'.mem r'.tail r'.head ms := by
  obtain ⟨ms, hsent, hlayout⟩ := h.unread
  have hkept := h.kept he
  cases he with
  | mark hd hskip => exact ⟨ms, hsent, hlayout.congr hkept⟩
  | copy hd hb => exact ⟨ms, hsent, hlayout.congr hkept⟩
  | @store msg at_ hd =>
    obtain ⟨-, -, hgap, hfit, -, -, hwritten⟩ :
      DaemonOk r.mem r.tail r.head (.writes msg at_ (4 + msg.length)) := hd ▸ h.daemon
    rw [← length_frame, List.take_length, length_frame] at hwritten
    have hframe := Layout.frame hfit hwritten (.done (at_ + need msg.length))
    refine ⟨ms ++ [msg], ?_, hlayout.append (hgap.append hframe)⟩
    change r.sent ++ [msg] = r.taken ++ (ms ++ [msg])
    rw [hsent, List.append_assoc]
  | @advanceSkip at_ hc =>
    obtain ⟨rfl, -, hle, hword⟩ : ClientOk r.mem r.tail r.head (.skips at_) := hc ▸ h.client
    cases hlayout.first (by decide) (by omega) with
    | skip hfit _ hmark hrest =>
      refine ⟨ms, hsent, ?_⟩
      change Layout RING_BYTES r.mem (r.tail + RING_BYTES - r.tail % RING_BYTES) r.head ms
      rwa [Nat.add_sub_assoc (by omega)]
    | frame m ns hms _ _ hlen hmark _ hrest => exact absurd (hlen.symm.trans hword) hmark
  | @advance at_ got hc =>
    obtain ⟨rfl, -, hle, hword, hwrap, -, hgot⟩ :
      ClientOk r.mem r.tail r.head (.copies at_ got.length got) := hc ▸ h.client
    cases hlayout.first (by decide) (by omega) with
    | skip hfit _ hmark hrest => exact absurd (hword.symm.trans hmark) hwrap
    | frame m ns hms _ _ hlen hmark hslice hrest =>
      have hsize : got.length = m.length := hword.symm.trans hlen
      obtain rfl : got = m := by rw [hgot, hsize, hslice]
      refine ⟨ns, ?_, hrest⟩
      change r.sent = r.taken ++ [got] ++ ns
      rw [hsent, hms, List.append_assoc, List.singleton_append]
  | _ => exact ⟨ms, hsent, hlayout⟩

theorem Sound.step (h : Sound r) (he : Effect r a r') : Sound r' := by
  have hdaemon := h.daemon_step he
  have hclient := h.client_step he
  have hunread := h.unread_step he
  have htail := h.tail_le
  cases he with
  | @store msg at_ hd =>
    obtain ⟨-, hdvd, -, -, hroom, -⟩ :
      DaemonOk r.mem r.tail r.head (.writes msg at_ (4 + msg.length)) := hd ▸ h.daemon
    exact ⟨dvd_add hdvd (eight_dvd_need _), hroom, hunread, hdaemon, hclient⟩
  | @advanceSkip at_ hc =>
    obtain ⟨rfl, -⟩ : ClientOk r.mem r.tail r.head (.skips at_) := hc ▸ h.client
    refine ⟨h.aligned, ?_, hunread, hdaemon, hclient⟩
    have hoccupied := h.occupied
    have hlt : r.tail % RING_BYTES < RING_BYTES := Nat.mod_lt _ (by decide)
    change r.head ≤ r.tail + RING_BYTES - r.tail % RING_BYTES + RING_BYTES
    omega
  | @advance at_ got hc =>
    obtain ⟨rfl, -⟩ : ClientOk r.mem r.tail r.head (.copies at_ got.length got) := hc ▸ h.client
    have hoccupied := h.occupied
    exact ⟨h.aligned, by simp only; omega, hunread, hdaemon, hclient⟩
  | _ => exact ⟨h.aligned, h.occupied, hunread, hdaemon, hclient⟩

end

theorem sound_of_reachable {r : Ring} (h : Reachable step Libre Ring.initial r) : Sound r :=
  h.invariant sound_initial fun _ _ _ _ hs hi => hi.step (effect_of_step hs)

/-! ### The client reaches the head -/

def Act.OfClient (a : Act) : Prop :=
  a ∈ [Act.look, .length, .byte, .advance, .load, .recheck, .wait, .timeout]

instance (a : Act) : Decidable a.OfClient := inferInstanceAs (Decidable (_ ∈ _))

/-- Steps the client may need until it has advanced the tail. -/
def Next.distance : Next → ℕ
  | .skips _ => 0
  | .copies _ len got => len - got.length
  | .reads _ => RING_BYTES + 1
  | .top => RING_BYTES + 2
  | .asleep => RING_BYTES + 3
  | .waits _ => RING_BYTES + 4
  | .loaded _ => RING_BYTES + 5
  | .empty => RING_BYTES + 6

def Ring.distance (r : Ring) : ℕ := (r.head - r.tail) * (RING_BYTES + 7) + r.client.distance

theorem distance_le {r : Ring} (h : Sound r) : r.client.distance ≤ RING_BYTES + 6 := by
  have hc := h.client
  cases hr : r.client with
  | copies at_ len got =>
    rw [hr] at hc
    obtain ⟨-, hfit, -⟩ := hc
    simp only [Next.distance]
    omega
  | _ => simp [Next.distance]

/-- Advancing the tail counts for more than any number of other steps. -/
theorem distance_advance {r r' : Ring} (h' : Sound r') (hhead : r'.head = r.head)
    (htail : r.tail < r'.tail) : r'.distance < r.distance := by
  have hle := h'.tail_le
  have hbound := distance_le h'
  have hless : r'.head - r'.tail + 1 ≤ r.head - r.tail := by omega
  have hmul := Nat.mul_le_mul_right (RING_BYTES + 7) hless
  simp only [Ring.distance]
  rw [Nat.add_mul] at hmul
  omega

/-- While something is unread the client has a step that brings it nearer to the head. -/
theorem client_advances {r : Ring} (h : Sound r) (hlt : r.tail < r.head) :
    ∃ a r', a.OfClient ∧ step r a = some r' ∧ r'.daemon = r.daemon ∧ r'.head = r.head ∧
      r'.sent = r.sent ∧ r'.distance < r.distance := by
  have hc := h.client
  cases hr : r.client with
  | top =>
    refine ⟨.look, { r with client := .reads r.tail }, by decide, ?_, rfl, rfl, rfl, ?_⟩
    · simp [step, stepDaemon, stepClient, hr, hlt]
    · simp [Ring.distance, hr, Next.distance]
  | empty =>
    refine ⟨.load, { r with client := .loaded r.seq }, by decide, ?_, rfl, rfl, rfl, ?_⟩
    · simp [step, stepDaemon, stepClient, hr]
    · simp [Ring.distance, hr, Next.distance]
  | loaded s =>
    refine ⟨.recheck, { r with client := .top }, by decide, ?_, rfl, rfl, rfl, ?_⟩
    · simp [step, stepDaemon, stepClient, hr, hlt.ne]
    · simp [Ring.distance, hr, Next.distance]
  | waits s =>
    refine ⟨.wait, { r with client := if r.seq = s then .asleep else .top }, by decide, ?_, rfl,
      rfl, rfl, ?_⟩
    · simp [step, stepDaemon, stepClient, hr]
    · simp only [Ring.distance, hr]
      split <;> simp [Next.distance]
  | asleep =>
    refine ⟨.timeout, { r with client := .top }, by decide, ?_, rfl, rfl, rfl, ?_⟩
    · simp [step, stepDaemon, stepClient, hr]
    · simp [Ring.distance, hr, Next.distance]
  | reads at_ =>
    rw [hr] at hc
    obtain ⟨rfl, -⟩ := hc
    by_cases hw : word r.mem (r.tail % RING_BYTES) = WRAP
    · refine ⟨.length, { r with client := .skips r.tail }, by decide, ?_, rfl, rfl, rfl, ?_⟩
      · simp [step, stepDaemon, stepClient, hr, hw]
      · simp [Ring.distance, hr, Next.distance]
    · have hstep : step r .length =
          some { r with client := .copies r.tail (word r.mem (r.tail % RING_BYTES)) [] } := by
        simp [step, stepDaemon, stepClient, hr, hw]
      obtain ⟨-, hfit, -⟩ := (h.step (effect_of_step hstep)).client
      refine ⟨.length, _, by decide, hstep, rfl, rfl, rfl, ?_⟩
      simp only [Ring.distance, hr, Next.distance, List.length_nil]
      omega
  | skips at_ =>
    rw [hr] at hc
    obtain ⟨rfl, -⟩ := hc
    have hstep : step r .advance = some { r with
        tail := r.tail + RING_BYTES - r.tail % RING_BYTES, client := .top } := by
      simp [step, stepDaemon, stepClient, hr]
    refine ⟨.advance, _, by decide, hstep, rfl, rfl, rfl, ?_⟩
    refine distance_advance (h.step (effect_of_step hstep)) rfl ?_
    have hmod : r.tail % RING_BYTES < RING_BYTES := Nat.mod_lt _ (by decide)
    dsimp only
    omega
  | copies at_ len got =>
    rw [hr] at hc
    obtain ⟨rfl, -, -, -, -, hlen, -⟩ := hc
    rcases hlen.lt_or_eq with hmore | hall
    · let b := r.mem (r.tail % RING_BYTES + 4 + got.length)
      refine ⟨.byte, { r with client := .copies r.tail len (got ++ [b]) }, by decide, ?_, rfl, rfl, rfl, ?_⟩
      · simp [step, stepDaemon, stepClient, hr, hmore, b]
      · simp only [Ring.distance, hr, Next.distance, List.length_append, List.length_singleton]
        omega
    · have hstep : step r .advance = some { r with
          tail := r.tail + need len, client := .top, taken := r.taken ++ [got] } := by
        simp [step, stepDaemon, stepClient, hr, hall]
      refine ⟨.advance, _, by decide, hstep, rfl, rfl, rfl, ?_⟩
      refine distance_advance (h.step (effect_of_step hstep)) rfl ?_
      have hneed := eight_le_need len
      dsimp only
      omega

theorem Sound.taken_eq {r : Ring} (h : Sound r) (heq : r.tail = r.head) : r.taken = r.sent := by
  obtain ⟨ms, hsent, hlayout⟩ := h.unread
  rw [heq] at hlayout
  rw [hsent, hlayout.nil_of_eq, List.append_nil]

/-- A client that keeps taking steps reads up to the head. -/
theorem client_reaches_head {r : Ring} (h : Sound r) :
    ∃ acts r', (∀ a ∈ acts, a.OfClient) ∧ run step r acts = some r' ∧ Sound r' ∧
      r'.daemon = r.daemon ∧ r'.head = r.head ∧ r'.sent = r.sent ∧ r'.tail = r'.head := by
  induction hn : r.distance using Nat.strong_induction_on generalizing r with
  | _ n ih =>
    rcases h.tail_le.lt_or_eq with hlt | heq
    · obtain ⟨a, r₁, ha, hstep, hdaemon, hhead, hsent, hless⟩ := client_advances h hlt
      obtain ⟨acts, r', hacts, hrun, hs', hdaemon', hhead', hsent', htail⟩ :=
        ih r₁.distance (hn ▸ hless) (h.step (effect_of_step hstep)) rfl
      exact ⟨a :: acts, r', List.forall_mem_cons.mpr ⟨ha, hacts⟩,
        run_cons_eq_some.mpr ⟨r₁, hstep, hrun⟩, hs', hdaemon'.trans hdaemon, hhead'.trans hhead,
        hsent'.trans hsent, htail⟩
    · exact ⟨[], r, List.forall_mem_nil _, rfl, h, rfl, rfl, rfl, heq⟩

theorem client_reads_all {r : Ring} (h : Sound r) :
    ∃ acts r', (∀ a ∈ acts, a.OfClient) ∧ run step r acts = some r' ∧ r'.taken = r.sent := by
  obtain ⟨acts, r', hacts, hrun, hs', -, -, hsent, htail⟩ := client_reaches_head h
  exact ⟨acts, r', hacts, hrun, (hs'.taken_eq htail).trans hsent⟩

/-! ### An append that gives up -/

/-- While an append waits for room, the daemon has changed nothing. -/
def Untouched (r₀ r : Ring) : Prop :=
  ∀ msg at_ skip, r.daemon = .waits msg at_ skip →
    r.head = r₀.head ∧ r.seq = r₀.seq ∧ r.mem = r₀.mem ∧ r.sent = r₀.sent

theorem Untouched.step {r₀ r r' : Ring} {a : Act} (h : Untouched r₀ r) (he : Effect r a r')
    (ha : ∀ msg, a ≠ .append msg) : Untouched r₀ r' := by
  intro msg at_ skip hd'
  cases he with
  | append hd => exact absurd rfl (ha _)
  | gone | room | mark | noMark | copy | store | bump | wake => cases hd'
  | _ => exact h msg at_ skip hd'

theorem gone_untouched {r r' : Ring} {msg : Msg} {acts : List Act}
    (hacts : ∀ m, Act.append m ∉ acts)
    (h : run step r (.append msg :: (acts ++ [.gone])) = some r') :
    r'.head = r.head ∧ r'.seq = r.seq ∧ r'.mem = r.mem ∧ r'.sent = r.sent := by
  obtain ⟨r₁, hbegin, h⟩ := run_cons_eq_some.mp h
  obtain ⟨r₂, hwaiting, h⟩ := run_append_eq_some.mp h
  obtain ⟨r₃, hend, h⟩ := run_cons_eq_some.mp h
  obtain rfl : r₃ = r' := Option.some.inj h
  have hstart : Untouched r r₁ := by
    intro _ _ _ _
    cases effect_of_step hbegin with
    | append hd => exact ⟨rfl, rfl, rfl, rfl⟩
  have hwait : Untouched r r₂ := by
    refine run_invariant hwaiting hstart fun s a s' ha hs hi => hi.step (effect_of_step hs) ?_
    rintro m rfl
    exact hacts m ha
  cases effect_of_step hend with
  | gone hd => exact hwait _ _ _ hd

/-! ### What was appended -/

/-- The messages whose append was begun, after this step. -/
def appendedStep (ms : List Msg) : Act → List Msg
  | .append msg => ms ++ [msg]
  -- the one that gives up is the last that was begun
  | .gone => ms.dropLast
  | _ => ms

/-- The messages whose append was begun in a run, and has not given up. -/
def appended (acts : List Act) : List Msg := acts.foldl appendedStep []

/-- The message whose append is not yet to be seen in the head. -/
def Append.pending : Append → List Msg
  | .waits msg _ _ | .marks msg _ _ | .writes msg _ _ => [msg]
  | _ => []

theorem appended_step {r r' : Ring} {a : Act} (he : Effect r a r') :
    appendedStep (r.sent ++ r.daemon.pending) a = r'.sent ++ r'.daemon.pending := by
  cases he with
  | append hd =>
    rw [hd]
    exact congrArg (· ++ [_]) (List.append_nil _)
  | gone hd =>
    rw [hd]
    exact List.dropLast_concat.trans (List.append_nil _).symm
  | room hd | mark hd | noMark hd | copy hd | bump hd | wake hd =>
    rw [hd]
    rfl
  | store hd =>
    rw [hd]
    exact (List.append_nil _).symm
  | _ => rfl

/-- What was appended is what is published, and the message that is being appended. -/
theorem appended_run {r r' : Ring} {acts : List Act} (h : run step r acts = some r') :
    acts.foldl appendedStep (r.sent ++ r.daemon.pending) = r'.sent ++ r'.daemon.pending := by
  induction acts generalizing r with
  | nil =>
    obtain rfl := Option.some.inj h
    rfl
  | cons a acts ih =>
    obtain ⟨r₁, hstep, hrest⟩ := run_cons_eq_some.mp h
    rw [List.foldl_cons, appended_step (effect_of_step hstep)]
    exact ih hrest

theorem appended_eq {r : Ring} {acts : List Act} (h : run step Ring.initial acts = some r) :
    appended acts = r.sent ++ r.daemon.pending :=
  appended_run h

/-- The daemon's steps from the room it has found to the end of an append. -/
def Act.Finishes (a : Act) : Prop := a ∈ [Act.mark, .copy, .store, .bump, .wake]

instance (a : Act) : Decidable a.Finishes := inferInstanceAs (Decidable (_ ∈ _))

/-- The frame is copied to its end. -/
theorem copies_frame {r : Ring} {msg : Msg} {at_ k : ℕ} (hd : r.daemon = .writes msg at_ k)
    (hk : k ≤ (frame msg).length) :
    ∃ r', run step r (List.replicate ((frame msg).length - k) .copy) = some r' ∧
      r'.daemon = .writes msg at_ (frame msg).length ∧ r'.head = r.head ∧ r'.sent = r.sent := by
  induction hn : (frame msg).length - k generalizing r k with
  | zero =>
    obtain rfl : k = (frame msg).length := by omega
    exact ⟨r, rfl, hd, rfl, rfl⟩
  | succ n ih =>
    have hlt : k < (frame msg).length := by omega
    obtain ⟨b, hb⟩ : ∃ b, (frame msg)[k]? = some b := ⟨_, List.getElem?_eq_getElem hlt⟩
    obtain ⟨r', hrun, hd', hsame⟩ := ih (k := k + 1)
      (r := { r with mem := put r.mem (at_ % RING_BYTES + k) [b], daemon := .writes msg at_ (k + 1) })
      rfl hlt (by omega)
    refine ⟨r', ?_, hd', hsame⟩
    rw [List.replicate_succ]
    refine run_cons_eq_some.mpr ⟨_, ?_, hrun⟩
    simp [step, stepDaemon, stepClient, hd, hb]

/-- A frame that is being copied is published. -/
theorem publishes {r : Ring} {msg : Msg} {at_ k : ℕ} (hd : r.daemon = .writes msg at_ k)
    (hk : k ≤ (frame msg).length) :
    ∃ more r', (∀ a ∈ more, a.Finishes) ∧ run step r more = some r' ∧ r'.sent = r.sent ++ [msg] := by
  obtain ⟨r₁, hcopies, hd₁, -, hsent⟩ := copies_frame hd hk
  rw [length_frame] at hd₁
  obtain ⟨r₂, hstore, hsent₂⟩ : ∃ r₂, run step r₁ [.store] = some r₂ ∧ r₂.sent = r₁.sent ++ [msg] := by
    simp [run, replay, step, stepDaemon, stepClient, hd₁]
  refine ⟨List.replicate ((frame msg).length - k) .copy ++ [.store], r₂, ?_,
    run_append_eq_some.mpr ⟨r₁, hcopies, hstore⟩, by rw [hsent₂, hsent]⟩
  intro a ha
  rcases List.mem_append.mp ha with ha | ha
  · obtain rfl := List.eq_of_mem_replicate ha
    decide
  · obtain rfl := List.mem_singleton.mp ha
    decide

/-- An append that has found room ends, and what it wrote is published. -/
theorem finishes {r : Ring} (h : Sound r) (hd : ∀ msg at_ skip, r.daemon ≠ .waits msg at_ skip) :
    ∃ more r', (∀ a ∈ more, a.Finishes) ∧ run step r more = some r' ∧
      r'.sent = r.sent ++ r.daemon.pending := by
  have hok := h.daemon
  cases hr : r.daemon with
  | idle | bumps | wakes => exact ⟨[], r, List.forall_mem_nil _, rfl, (List.append_nil _).symm⟩
  | waits msg at_ skip => exact absurd hr (hd msg at_ skip)
  | writes msg at_ k =>
    rw [hr] at hok
    exact publishes hr hok.2.2.2.2.2.1
  | marks msg at_ skip =>
    obtain ⟨r₁, at_', hstep, hd₁, hsent⟩ : ∃ r₁ at_', step r .mark = some r₁ ∧ r₁.daemon = .writes msg at_' 0 ∧
        r₁.sent = r.sent := by
      by_cases hskip : 0 < skip
      · simp [step, stepDaemon, stepClient, hr, hskip]
      · simp [step, stepDaemon, stepClient, hr, hskip]
    obtain ⟨more, r', hmore, hrun, hsent'⟩ := publishes hd₁ (Nat.zero_le _)
    refine ⟨.mark :: more, r', List.forall_mem_cons.mpr ⟨by decide, hmore⟩, run_cons_eq_some.mpr ⟨r₁, hstep, hrun⟩, ?_⟩
    rw [hsent', hsent]
    rfl

/-- With a message that fits the ring behind what is skipped, the two sides' own steps bring the client to have read it. -/
theorem reads_appended {r : Ring} (h : Sound r)
    (hfits : ∀ msg at_ skip, r.daemon = .waits msg at_ skip → skip + need msg.length ≤ RING_BYTES) :
    ∃ more r', (∀ a ∈ more, a.OfClient ∨ a = .room ∨ a.Finishes) ∧ run step r more = some r' ∧
      r'.taken = r.sent ++ r.daemon.pending := by
  obtain ⟨reads, r₁, hreads, hrun₁, hs₁, hd₁, -, hsent₁, htail⟩ := client_reaches_head h
  have hfound : ∃ waited r₂, (∀ a ∈ waited, a = .room) ∧ run step r₁ waited = some r₂ ∧ Sound r₂ ∧
      (∀ msg at_ skip, r₂.daemon ≠ .waits msg at_ skip) ∧ r₂.sent = r.sent ∧ r₂.daemon.pending = r.daemon.pending := by
    cases hr : r.daemon with
    | waits msg at_ skip =>
      have hr₁ : r₁.daemon = .waits msg at_ skip := hd₁.trans hr
      have hok := hs₁.daemon
      rw [hr₁] at hok
      have hroom : r₁.HasRoom at_ skip (need msg.length) := by
        have hle := hfits msg at_ skip hr
        rw [Ring.HasRoom, hok.1, htail]
        omega
      have hstep : step r₁ .room = some { r₁ with daemon := .marks msg at_ skip } := by
        simp [step, stepDaemon, stepClient, hr₁, hroom]
      refine ⟨[.room], _, by simp, run_cons_eq_some.mpr ⟨_, hstep, rfl⟩, hs₁.step (effect_of_step hstep), ?_, hsent₁, rfl⟩
      intro msg' at' skip' h'
      cases h'
    | _ =>
      refine ⟨[], r₁, List.forall_mem_nil _, rfl, hs₁, ?_, hsent₁, by rw [hd₁, hr]⟩
      intro msg at_ skip hw
      rw [hd₁, hr] at hw
      cases hw
  obtain ⟨waited, r₂, hwaited, hrun₂, hs₂, hd₂, hsent₂, hpending⟩ := hfound
  obtain ⟨ends, r₃, hends, hrun₃, hsent₃⟩ := finishes hs₂ hd₂
  have hs₃ : Sound r₃ := run_invariant hrun₃ hs₂ fun _ _ _ _ hs hi => hi.step (effect_of_step hs)
  obtain ⟨rest, r₄, hrest, hrun₄, htaken⟩ := client_reads_all hs₃
  refine ⟨reads ++ (waited ++ (ends ++ rest)), r₄, ?_, ?_, ?_⟩
  · intro a ha
    simp only [List.mem_append] at ha
    rcases ha with ha | ha | ha | ha
    · exact .inl (hreads a ha)
    · exact .inr (.inl (hwaited a ha))
    · exact .inr (.inr (hends a ha))
    · exact .inl (hrest a ha)
  · exact run_append_eq_some.mpr ⟨r₁, hrun₁, run_append_eq_some.mpr ⟨r₂, hrun₂, run_append_eq_some.mpr ⟨r₃, hrun₃, hrun₄⟩⟩⟩
  · rw [htaken, hsent₃, hsent₂, hpending]

/-- Whatever steps of the two sides are taken in whatever order: the client has read the
first of the messages that were appended, byte for byte; all of them when it finds the ring
empty, but for the one whose append goes on, and its own steps bring it there; with those of
the daemon it reads that one too, if the ring can hold it. No step touches a byte between tail
and head, and an append that gives up leaves the head, the sequence number and the memory as
they were. -/
theorem ring_fifo {acts : List Act} {r : Ring} (h : run step Ring.initial acts = some r) :
    appended acts = r.sent ++ r.daemon.pending ∧
    r.taken <+: r.sent ∧ (r.tail = r.head → r.taken = r.sent) ∧
    (∃ more r', (∀ a ∈ more, a.OfClient) ∧ run step r more = some r' ∧ r'.taken = r.sent) ∧
    ((∀ msg at_ skip, r.daemon = .waits msg at_ skip → skip + need msg.length ≤ RING_BYTES) →
      ∃ more r', (∀ a ∈ more, a.OfClient ∨ a = .room ∨ a.Finishes) ∧ run step r more = some r' ∧
        r'.taken = appended acts) ∧
    (∀ a r', step r a = some r' → Kept RING_BYTES r.mem r'.mem r.tail r.head) ∧
    ∀ msg more r', (∀ m, Act.append m ∉ more) →
      run step r (.append msg :: (more ++ [.gone])) = some r' →
      r'.head = r.head ∧ r'.seq = r.seq ∧ r'.mem = r.mem ∧ r'.sent = r.sent := by
  have hs : Sound r := sound_of_reachable (Reachable.refl.run (fun _ _ _ => trivial) h)
  obtain ⟨ms, hsent, -⟩ := hs.unread
  have happended := appended_eq h
  refine ⟨happended, ⟨ms, hsent.symm⟩, hs.taken_eq, client_reads_all hs, ?_,
    fun a r' hstep => hs.kept (effect_of_step hstep),
    fun msg more r' hmore hrun => gone_untouched hmore hrun⟩
  rw [happended]
  exact reads_appended hs

/-- One message written and read. -/
def oneMessage : List Act :=
  [.append [1, 2, 3], .room, .mark] ++ List.replicate 7 .copy ++ [.store, .look, .length] ++
    List.replicate 3 .byte ++ [.bump, .advance, .wake]

/-- A second one is written, and a third begun. -/
def threeMessages : List Act :=
  oneMessage ++ [.append [], .room, .mark] ++ List.replicate 4 .copy ++
    [.store, .bump, .wake, .append [4], .room]

theorem ring_fifo_threeMessages : ∃ r, run step Ring.initial threeMessages = some r ∧
    r.taken = [[1, 2, 3]] ∧ appended threeMessages = [[1, 2, 3], [], [4]] ∧
    appended threeMessages = r.sent ++ r.daemon.pending ∧ r.taken <+: r.sent := by
  have hrun : ((run step Ring.initial threeMessages).map Ring.taken) = some [[1, 2, 3]] := by
    decide +kernel
  obtain ⟨r, hr, htaken⟩ := Option.map_eq_some_iff.mp hrun
  obtain ⟨happended, hprefix, -⟩ := ring_fifo hr
  exact ⟨r, hr, htaken, rfl, happended, hprefix⟩

end Chatlink.Serve
