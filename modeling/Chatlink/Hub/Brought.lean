import Chatlink.Hub.Workers

/-!
# Nobody waits for a chunk that nobody brings

Every chunk that was taken and is not done is a worker's own, unless the download has failed. A
worker gives a chunk up only when it is done, since a body that ended where it had to has passed the
end of every chunk in its range; whether a chunk that was passed is marked depends on the state file.
-/
namespace Chatlink.Hub

open Files Transition

variable {c : Config} {s s' s₀ : System} {p q : Proc} {k : ℕ}

/-- The state file can be written whenever a chunk is to be marked. -/
def Recorded (_ : System) (inp : Input) : Prop := ∀ k, inp ≠ .worker k (.mark false)

/-- The hasher and the flusher, if they are at a chunk, can go on. -/
def Awake (c : Config) (s : System) (p : Proc) : Prop :=
  (∀ i bytes read, p.hash = .running i bytes → (step c s (.hash read)).isSome) ∧
    ∀ i synced, p.flush = .running i → (step c s (.flush synced)).isSome

/-! ## What a worker has gone through -/

/-- The chunks of a task that are done come before those that are not, up to the first that was not missing. -/
def Task.Ordered (t : Task) (done : ℕ → Bool) : Prop :=
  ∀ i j, t.frm ≤ i → i < j → j < t.past → done j = true → done i = true

/-- The chunks of a task before `x` are done, and an attempt reaches over all that were missing. -/
structure Attempt.Through (r : Attempt) (done : ℕ → Bool) (x : ℕ) : Prop where
  past : r.task.past ≤ r.b
  done : ∀ i, r.task.frm ≤ i → i < x → done i = true

def Phase.Through (done : ℕ → Bool) : Phase → Prop
  | .trying t => t.Ordered done
  | .failing t => t.Ordered done
  | .asking r => r.Through done r.a
  | .asked r => r.Through done r.a
  | .body r _ _ chunk => r.Through done chunk
  | _ => True

/-- An attempt leaves its task in order. -/
theorem Attempt.Through.ordered {r : Attempt} {done : ℕ → Bool} {x : ℕ} (h : r.Through done x)
    (hmissing : ∀ i, x ≤ i → i < r.b → done i = false) : r.task.Ordered done := by
  intro i j hi hij hj hdone
  have hpast := h.past
  by_cases hx : i < x
  · exact h.done i hi hx
  · rw [hmissing j (by omega) (by omega)] at hdone
    cases hdone

/-- Only chunks of its own matter to a worker. -/
theorem through_congr {done done' : ℕ → Bool} {phase : Phase} (hok : c.PhaseOk done phase) (h : phase.Through done)
    (hdone : ∀ i, c.Owns i phase → done' i = done i) : phase.Through done' := by
  have hordered (t : Task) (ht : t.Within c) (ho : t.Ordered done)
      (howns : ∀ i, t.frm ≤ i ∧ i < t.stop → done' i = done i) : t.Ordered done' := by
    intro i j hi hij hj hdone'
    have hpast := ht.past
    rw [howns j ⟨by omega, by omega⟩] at hdone'
    rw [howns i ⟨hi, by omega⟩]
    exact ho i j hi hij hj hdone'
  have hattempt (r : Attempt) (x : ℕ) (hr : r.Within c) (hx : x ≤ r.b) (ho : r.Through done x)
      (howns : ∀ i, r.task.frm ≤ i ∧ i < r.task.stop → done' i = done i) : r.Through done' x := by
    refine ⟨ho.past, fun i hi hix => ?_⟩
    have hstop := hr.stop
    rw [howns i ⟨hi, by omega⟩]
    exact ho.done i hi hix
  cases phase with
  | trying t => exact hordered t hok h hdone
  | failing t => exact hordered t hok h hdone
  | asking r => exact hattempt r r.a hok.1 hok.1.some.le h hdone
  | asked r => exact hattempt r r.a hok.1 hok.1.some.le h hdone
  | body r status at_ chunk => exact hattempt r chunk hok.1 hok.2.2.1 h hdone
  | claiming => trivial
  | claimed first => trivial
  | scanning at_ stop => trivial
  | ended => trivial

/-- An attempt asks for all that is missing of what its task was made for. -/
theorem through_ask {t : Task} {done : ℕ → Bool} {a b : ℕ} {fetch : Fetch} (ht : t.Within c) (h : t.Ordered done)
    (hsome : missing done t.frm t.stop = some (a, b)) : (Attempt.mk t a b fetch).Through done a := by
  obtain ⟨hfrm, hlt, hstop, hbefore, hmissing, hend⟩ := missing_some hsome
  refine ⟨?_, hbefore⟩
  by_contra hpast
  have hpast : b < t.past := by simpa using hpast
  obtain heq | hdone := hend
  · have hle := ht.past
    omega
  · have hfirst := h a b hfrm hlt hpast hdone
    rw [hmissing a (Nat.le_refl a) hlt] at hfirst
    cases hfirst

/-! ## The invariant -/

structure Attended (c : Config) (s : System) (p : Proc) : Prop where
  sound : Sound c p
  through : ∀ k, (p.workers k).phase.Through p.done
  kept : p.failed = true ∨
    ∀ i < c.chunks, i < p.next → p.done i = true ∨ ∃ k < c.workers, c.Owns i (p.workers k).phase
  ended : ∀ k, (p.workers k).phase = .ended → p.failed = true ∨ c.chunks ≤ p.next
  hashing : p.main ≠ .joining → ∀ i bytes, p.hash ≠ .running i bytes
  part : p.main = .joining → ∃ part, s.part = some part

theorem Attended.brought (hs : Attended c s p) (hended : ∀ k < c.workers, (p.workers k).phase = .ended) :
    p.failed = true ∨ ∀ i < c.chunks, p.done i = true := by
  have hworkers : 0 < c.workers := Nat.lt_of_lt_of_le Nat.one_pos (Nat.le_max_left _ _)
  obtain hfailed | hkept := hs.kept
  · exact .inl hfailed
  · obtain hfailed | hnext := hs.ended 0 (hended 0 hworkers)
    · exact .inl hfailed
    · refine .inr fun i hi => ?_
      obtain hdone | ⟨k, hk, howns⟩ := hkept i hi (hi.trans_le hnext)
      · exact hdone
      · rw [hended k hk] at howns
        exact absurd howns id

/-- One worker goes on. It lets go of chunks that are done only, unless the download has failed. -/
theorem Attended.set (hs : Attended c s p) (hk : k < c.workers) {phase : Phase} (hphase : (p.workers k).phase = phase)
    (hsound : Sound c q) {w : Worker} (hworkers : q.workers = Function.update p.workers k w) (hmain : q.main = p.main)
    (hhash : q.hash = p.hash) (hpart : ∀ part, s.part = some part → ∃ part', s'.part = some part')
    (hnext : p.next ≤ q.next) (hfailed : p.failed = true → q.failed = true)
    (hdone : ∀ i, p.done i = true → q.done i = true)
    (hothers : ∀ i, ¬c.Owns i phase → q.done i = p.done i) (hthrough : w.phase.Through q.done)
    (hkept : q.failed = true ∨ ∀ i < c.chunks, i < q.next → p.next ≤ i ∨ c.Owns i phase →
      q.done i = true ∨ c.Owns i w.phase)
    (hended : w.phase = .ended → q.failed = true ∨ c.chunks ≤ q.next) : Attended c s' q := by
  subst hphase
  have hself : q.workers k = w := by rw [hworkers, Function.update_self]
  have hother : ∀ j ≠ k, q.workers j = p.workers j := fun j hj => by rw [hworkers, Function.update_of_ne hj]
  refine ⟨hsound, fun j => ?_, ?_, fun j hj => ?_, fun hne => ?_, fun hjoining => ?_⟩
  · by_cases hj : j = k
    · rw [hj, hself]
      exact hthrough
    · rw [hother j hj]
      exact through_congr (hs.sound.phase j) (hs.through j) fun i hi => hothers i fun hik => hj (hs.sound.apart j k i hi hik)
  · obtain hpfailed | hpkept := hs.kept
    · exact .inl (hfailed hpfailed)
    · obtain hqfailed | hkept := hkept
      · exact .inl hqfailed
      · refine .inr fun i hi hiq => ?_
        have hmine (h : p.next ≤ i ∨ c.Owns i (p.workers k).phase) :
            q.done i = true ∨ ∃ k < c.workers, c.Owns i (q.workers k).phase :=
          (hkept i hi hiq h).imp_right fun howns => ⟨k, hk, by rw [hself]; exact howns⟩
        by_cases hip : p.next ≤ i
        · exact hmine (.inl hip)
        · obtain hdone' | ⟨j, hjc, howns⟩ := hpkept i hi (by omega)
          · exact .inl (hdone i hdone')
          · by_cases hj : j = k
            · exact hmine (.inr (hj ▸ howns))
            · exact .inr ⟨j, hjc, by rw [hother j hj]; exact howns⟩
  · by_cases hjk : j = k
    · rw [hjk, hself] at hj
      exact hended hj
    · rw [hother j hjk] at hj
      exact (hs.ended j hj).imp hfailed fun h => h.trans hnext
  · rw [hhash]
    exact hs.hashing (hmain ▸ hne)
  · obtain ⟨part, hsome⟩ := hs.part (hmain ▸ hjoining)
    exact hpart part hsome

/-- One worker goes on without taking or marking chunks. -/
theorem Attended.goOn (hs : Attended c s p) (hk : k < c.workers) {phase : Phase} (hphase : (p.workers k).phase = phase)
    (hsound : Sound c q) {w : Worker} (hworkers : q.workers = Function.update p.workers k w) (hmain : q.main = p.main)
    (hhash : q.hash = p.hash) (hpart : ∀ part, s.part = some part → ∃ part', s'.part = some part')
    (hnext : q.next = p.next) (hfailed : q.failed = p.failed) (hdone : q.done = p.done)
    (hthrough : w.phase.Through p.done)
    (hkept : ∀ i < c.chunks, c.Owns i phase → p.done i = true ∨ c.Owns i w.phase)
    (hne : w.phase ≠ .ended) : Attended c s' q := by
  refine hs.set hk hphase hsound hworkers hmain hhash hpart hnext.ge (fun h => hfailed ▸ h) (fun i h => hdone ▸ h)
    (fun i _ => by rw [hdone]) (hdone ▸ hthrough) (.inr fun i hi hiq h => ?_) fun h => absurd h hne
  rw [hdone]
  obtain hle | howns := h
  · rw [hnext] at hiq
    exact absurd hle (by omega)
  · exact hkept i hi howns

/-- Chunks end one behind the other. -/
theorem finish_le_finish {i b : ℕ} (h : i < b) : c.finish i ≤ c.finish (b - 1) := by
  have hmul : i * CHUNK ≤ (b - 1) * CHUNK := Nat.mul_le_mul_right CHUNK (by omega)
  obtain heq | hlt : i = b - 1 ∨ i + 1 ≤ b - 1 := by omega
  · rw [heq]
  · have hnext : (i + 1) * CHUNK ≤ (b - 1) * CHUNK := Nat.mul_le_mul_right CHUNK hlt
    rw [Nat.succ_mul] at hnext
    simp only [Config.finish, Config.span]
    omega

theorem run_pos : 0 < c.run := Nat.lt_of_lt_of_le Nat.one_pos (Nat.le_max_left _ _)

theorem Attended.works (hs : Attended c s p) (hk : k < c.workers) {act : Act} (hact : act ≠ .mark false)
    (h : Works c s p k act s') (hq : s'.proc = some q) : Attended c s' q := by
  have hsound : Sound c q := by
    obtain ⟨q', hq', hsound⟩ := hs.sound.works h
    obtain rfl := Option.some.inj (hq'.symm.trans hq)
    exact hsound
  have hphase := hs.sound.phase k
  have hthrough := hs.through k
  have hsame : ∀ part, s.part = some part → ∃ part', s.part = some part' := fun part h => ⟨part, h⟩
  cases h with
  | claim h =>
    obtain rfl := Option.some.inj hq
    refine hs.set hk h hsound rfl rfl rfl hsame (Nat.le_add_right _ _) id (fun _ => id) (fun _ _ => rfl) trivial
      (.inr fun i hi hiq hold => ?_) nofun
    obtain hle | howns := hold
    · exact .inr ⟨hle, hiq⟩
    · exact absurd howns id
  | quit first h hover =>
    obtain rfl := Option.some.inj hq
    have hbelow := hs.sound.below k first (by rw [h]; exact ⟨Nat.le_refl _, Nat.lt_add_of_pos_right run_pos⟩)
    refine hs.set hk h hsound rfl rfl rfl hsame (Nat.le_refl _) id (fun _ => id) (fun _ _ => rfl) trivial ?_ fun _ => ?_
    · obtain hover | hfailed := hover
      · refine .inr fun i hi hiq hold => ?_
        obtain hle | howns := hold
        · exact absurd hiq (Nat.not_lt_of_le hle)
        · exact absurd hi (Nat.not_lt_of_le (hover.trans howns.1))
      · exact .inl hfailed
    · obtain hover | hfailed := hover
      · exact .inr (hover.trans hbelow.le)
      · exact .inl hfailed
  | scan first h hfirst =>
    obtain rfl := Option.some.inj hq
    refine hs.goOn hk h hsound rfl rfl rfl hsame rfl rfl rfl trivial (fun i hi howns => .inr ?_) nofun
    exact ⟨howns.1, Nat.lt_min.mpr ⟨howns.2, hi⟩⟩
  | exhausted at_ stop h hnone =>
    obtain rfl := Option.some.inj hq
    refine hs.goOn hk h hsound rfl rfl rfl hsame rfl rfl rfl trivial (fun i hi howns => .inl ?_) nofun
    exact missing_none hnone i howns.1 howns.2
  | take at_ stop frm past h hsome =>
    obtain rfl := Option.some.inj hq
    obtain ⟨hfrm, hlt, hpast, hbefore, hmissing, -⟩ := missing_some hsome
    refine hs.goOn hk h hsound rfl rfl rfl hsame rfl rfl rfl (fun i j hi hij hj hdone => ?_) (fun i hi howns => ?_) nofun
    · rw [hmissing j (hi.trans hij.le) hj] at hdone
      cases hdone
    · by_cases hi' : i < frm
      · exact .inl (hbefore i howns.1 hi')
      · exact .inr ⟨Nat.le_of_not_lt hi', howns.2⟩
  | through t h hnone =>
    obtain rfl := Option.some.inj hq
    refine hs.goOn hk h hsound rfl rfl rfl hsame rfl rfl rfl trivial (fun i hi howns => .inl ?_) nofun
    exact missing_none hnone i howns.1 howns.2
  | ask t a b h hsome =>
    obtain rfl := Option.some.inj hq
    rw [h] at hphase hthrough
    exact hs.goOn hk h hsound rfl rfl rfl hsame rfl rfl rfl (through_ask hphase hthrough hsome)
      (fun i hi howns => .inr howns) nofun
  | giveUp t h hlast =>
    obtain rfl := Option.some.inj hq
    exact hs.set hk h hsound rfl rfl rfl hsame (Nat.le_refl _) (fun _ => rfl) (fun _ => id) (fun _ _ => rfl) trivial
      (.inl rfl) fun _ => .inl rfl
  | retry t h =>
    obtain rfl := Option.some.inj hq
    rw [h] at hthrough
    exact hs.goOn hk h hsound rfl rfl rfl hsame rfl rfl rfl hthrough (fun i hi howns => .inr howns) nofun
  | sent r h =>
    obtain rfl := Option.some.inj hq
    rw [h] at hthrough
    exact hs.goOn hk h hsound rfl rfl rfl hsame rfl rfl rfl hthrough (fun i hi howns => .inr howns) nofun
  | redirected r status location closing fetch h hfetch =>
    obtain rfl := Option.some.inj hq
    rw [h] at hthrough
    exact hs.goOn hk h hsound rfl rfl rfl hsame rfl rfl rfl ⟨hthrough.past, hthrough.done⟩
      (fun i hi howns => .inr howns) nofun
  | answered r status closing h =>
    obtain rfl := Option.some.inj hq
    rw [h] at hthrough
    exact hs.goOn hk h hsound rfl rfl rfl hsame rfl rfl rfl hthrough (fun i hi howns => .inr howns) nofun
  | failed act r conn h =>
    obtain rfl := Option.some.inj hq
    obtain h | h | ⟨status, at_, chunk, h⟩ := h
    · rw [h] at hphase hthrough
      exact hs.goOn hk h hsound rfl rfl rfl hsame rfl rfl rfl (hthrough.ordered hphase.2)
        (fun i hi howns => .inr howns) nofun
    · rw [h] at hphase hthrough
      exact hs.goOn hk h hsound rfl rfl rfl hsame rfl rfl rfl (hthrough.ordered hphase.2)
        (fun i hi howns => .inr howns) nofun
    · rw [h] at hphase hthrough
      exact hs.goOn hk h hsound rfl rfl rfl hsame rfl rfl rfl (hthrough.ordered hphase.2.2.2.2)
        (fun i hi howns => .inr howns) nofun
  | wrote r status at_ chunk bytes part h hpart hpending =>
    obtain rfl := Option.some.inj hq
    rw [h] at hthrough
    exact hs.goOn hk h hsound rfl rfl rfl (fun _ _ => ⟨_, rfl⟩) rfl rfl rfl hthrough
      (fun i hi howns => .inr howns) nofun
  | tore r status at_ chunk n bytes part h hpart hpending =>
    obtain rfl := Option.some.inj hq
    rw [h] at hphase hthrough
    exact hs.goOn hk h hsound rfl rfl rfl (fun _ _ => ⟨_, rfl⟩) rfl rfl rfl (hthrough.ordered hphase.2.2.2.2)
      (fun i hi howns => .inr howns) nofun
  | marked r status at_ chunk state h hstate hchunk hwhole =>
    obtain rfl := Option.some.inj hq
    rw [h] at hphase hthrough
    have hmark (i : ℕ) (hi : p.done i = true) : Function.update p.done chunk true i = true := by
      by_cases hne : i = chunk
      · rw [hne, Function.update_self]
      · rw [Function.update_of_ne hne, hi]
    refine hs.set hk h hsound rfl rfl rfl hsame (Nat.le_refl _) id hmark (fun i hi => ?_)
      ⟨hthrough.past, fun i hi hlt => ?_⟩ (.inr fun i hi hiq hold => ?_) nofun
    · refine Function.update_of_ne (fun heq => hi ?_) _ _
      rw [heq]
      exact ⟨hphase.1.frm.trans hphase.2.1, hchunk.trans_le hphase.1.stop⟩
    · obtain hlt | rfl := Nat.lt_succ_iff_lt_or_eq.mp hlt
      · exact hmark i (hthrough.done i hi hlt)
      · exact Function.update_self i true p.done
    · obtain hle | howns := hold
      · exact absurd hiq (Nat.not_lt_of_le hle)
      · exact .inr howns
  | skipped r status at_ chunk h hchunk hwhole => exact absurd rfl hact
  | finished r status at_ chunk url phase h hpending hurl hend =>
    obtain rfl := Option.some.inj hq
    rw [h] at hphase hthrough
    obtain rfl | ⟨rfl, -, hat⟩ := hend
    · exact hs.goOn hk h hsound rfl rfl rfl hsame rfl rfl rfl (hthrough.ordered hphase.2.2.2.2)
        (fun i hi howns => .inr howns) nofun
    · have hall : chunk = r.b := by
        refine hphase.2.2.1.eq_of_not_lt fun hlt => ?_
        have hbefore := hpending hlt
        rw [hat] at hbefore
        exact absurd (finish_le_finish hlt) (Nat.not_le_of_lt hbefore)
      refine hs.goOn hk h hsound rfl rfl rfl hsame rfl rfl rfl trivial (fun i hi howns => ?_) nofun
      by_cases hpast : i < r.task.past
      · exact .inl (hthrough.done i howns.1 (by have := hthrough.past; omega))
      · exact .inr ⟨Nat.le_of_not_lt hpast, howns.2⟩

/-! ## The other threads -/

theorem Attended.keep (hs : Attended c s p) (hworkers : q.workers = p.workers) (hdone : q.done = p.done)
    (hnext : q.next = p.next) (hfailed : q.failed = p.failed)
    (hhashing : q.main ≠ .joining → ∀ i bytes, q.hash ≠ .running i bytes)
    (hpart : q.main = .joining → ∃ part, s'.part = some part) : Attended c s' q := by
  refine ⟨hs.sound.keep hworkers hdone hnext, ?_, ?_, ?_, hhashing, hpart⟩
  · rw [hworkers, hdone]
    exact hs.through
  · rw [hworkers, hdone, hnext, hfailed]
    exact hs.kept
  · rw [hworkers, hnext, hfailed]
    exact hs.ended

theorem Attended.step (hs : ∀ p, s.proc = some p → Attended c s p) {inp : Input} (hrecorded : Recorded s inp)
    (hstep : step c s inp = some s') (hq : s'.proc = some q) : Attended c s' q := by
  cases moves_of_step hstep with
  | opened o part state hproc hpart hstate htarget => exact absurd (hproc.symm.trans hq) nofun
  | started hproc htarget =>
    obtain rfl := Option.some.inj hq
    exact ⟨sound_start _, fun _ => trivial, .inr fun _ _ h => absurd h (Nat.not_lt_zero _), nofun,
      fun h => absurd rfl h, fun _ => ⟨_, rfl⟩⟩
  | worked p k act s' hproc hk h => exact (hs p hproc).works hk (fun heq => hrecorded k (by rw [heq])) h hq
  | killed p hproc => cases hq
  | hashedAll p i bytes read hproc hhash hi =>
    obtain rfl := Option.some.inj hq
    exact (hs p hproc).keep rfl rfl rfl rfl (fun _ => nofun) (hs p hproc).part
  | hashed p i bytes part read hproc hpart hhash hi hdone hfile =>
    obtain rfl := Option.some.inj hq
    refine (hs p hproc).keep rfl rfl rfl rfl (fun hmain => ?_) (hs p hproc).part
    exact absurd hhash ((hs p hproc).hashing hmain i bytes)
  | unhashed p read hash hproc hhash =>
    obtain rfl := Option.some.inj hq
    refine (hs p hproc).keep rfl rfl rfl rfl (fun _ => ?_) (hs p hproc).part
    obtain rfl | ⟨rfl, -⟩ := hhash
    all_goals nofun
  | flushed p synced flush hproc =>
    obtain rfl := Option.some.inj hq
    exact (hs p hproc).keep rfl rfl rfl rfl (hs p hproc).hashing (hs p hproc).part
  | joined p hproc hmain hhash hended =>
    obtain rfl := Option.some.inj hq
    refine (hs p hproc).keep rfl rfl rfl rfl (fun _ => hhash) fun _ => (hs p hproc).part hmain
  | mismatched p done state hproc hmain hstate =>
    obtain rfl := Option.some.inj hq
    exact (hs p hproc).keep rfl rfl rfl rfl (fun _ => (hs p hproc).hashing (by rw [hmain]; nofun)) nofun
  | synced p hproc hmain =>
    obtain rfl := Option.some.inj hq
    exact (hs p hproc).keep rfl rfl rfl rfl (fun _ => (hs p hproc).hashing (by rw [hmain]; nofun)) nofun
  | renamed p hproc hmain =>
    obtain rfl := Option.some.inj hq
    exact (hs p hproc).keep rfl rfl rfl rfl (fun _ => (hs p hproc).hashing (by rw [hmain]; nofun)) nofun
  | unsettled p hproc hmain =>
    obtain rfl := Option.some.inj hq
    exact (hs p hproc).keep rfl rfl rfl rfl (fun _ => (hs p hproc).hashing hmain) nofun
  | removed p hproc hmain =>
    obtain rfl := Option.some.inj hq
    exact (hs p hproc).keep rfl rfl rfl rfl (fun _ => (hs p hproc).hashing (by rw [hmain]; nofun)) nofun

/-! ## Every run -/

/-- Nothing holds up a thread that waits for chunks of which all are done or one has failed. -/
theorem Attended.awake (hs : Attended c s p) (hproc : s.proc = some p)
    (hbrought : p.failed = true ∨ ∀ i < c.chunks, p.done i = true) : Awake c s p := by
  refine ⟨fun i bytes read hhash => ?_, fun i synced hflush => ?_⟩
  · have hjoining : p.main = .joining := by
      by_contra hmain
      exact hs.hashing hmain i bytes hhash
    obtain ⟨part, hpart⟩ := hs.part hjoining
    simp only [Hub.step, hproc, procStep, hhash, hpart]
    split_ifs with hi hdone hread hfailed
    · rfl
    · rfl
    · rfl
    · rfl
    · obtain h | h := hbrought
      · exact absurd h hfailed
      · exact absurd (h i (Nat.lt_of_not_le hi)) hdone
  · simp only [Hub.step, hproc, procStep, hflush]
    split_ifs with hi hdone hsynced hfailed
    · rfl
    · rfl
    · rfl
    · rfl
    · obtain h | h := hbrought
      · exact absurd h hfailed
      · exact absurd (h i (Nat.lt_of_not_le hi)) hdone

/-- If every chunk that is whole can be recorded, the download has failed or has every chunk once all
workers have ended, and neither the hasher nor the flusher waits. -/
theorem chunks_brought (hproc : s₀.proc = none) (h : Reachable (Hub.step c) Recorded s₀ s) (hp : s.proc = some p)
    (hended : ∀ k < c.workers, (p.workers k).phase = .ended) :
    (p.failed = true ∨ ∀ i < c.chunks, p.done i = true) ∧ Awake c s p := by
  have hinv : ∀ p, s.proc = some p → Attended c s p := by
    refine h.invariant (I := fun s => ∀ p, s.proc = some p → Attended c s p) ?_ fun s inp s' hrecorded hstep hs p hp => ?_
    · exact fun p hp => absurd (hproc.symm.trans hp) nofun
    · exact Attended.step hs hrecorded hstep hp
  have hbrought := (hinv p hp).brought hended
  exact ⟨hbrought, (hinv p hp).awake hp hbrought⟩

/-- A chunk is asked for, answered and gone through. -/
def answered (written : Bool) : List Input :=
  asking ++ answering 206 [1, 2, 3] written ++ [.worker 0 .go, .worker 0 .go, .worker 0 .go]

instance (s : System) : DecidablePred (Recorded s)
  | .worker k (.mark false) => .isFalse fun h => h k rfl
  | .worker _ (.mark true) | .worker _ .go | .worker _ (.send _) | .worker _ (.redirect _ _ _) | .worker _ (.head _ _)
  | .worker _ (.piece _ _) | .worker _ .finish | .worker _ .error | .start _ | .hash _ | .flush _ | .join | .settle _
  | .kill => .isTrue nofun

theorem answered_run : (replay (Hub.step gated) (fun s inp => decide (Recorded s inp)) ⟨none, none, none, none, []⟩
    (answered true)).isSome := by decide

/-- The one worker of a download has ended, and the hasher can go on. -/
theorem one_chunk_brought : ∃ s p, Reachable (Hub.step gated) Recorded ⟨none, none, none, none, []⟩ s ∧
    s.proc = some p ∧ (p.failed = true ∨ ∀ i < gated.chunks, p.done i = true) ∧ Awake gated s p := by
  have hrun := (reachable_get _ answered_run).mono fun _ _ => of_decide_eq_true
  refine ⟨_, _, hrun, rfl, chunks_brought rfl hrun rfl ?_⟩
  decide

theorem unrecorded_run : (run (Hub.step gated) ⟨none, none, none, none, []⟩ (answered false)).isSome := by decide

/-- The byte of the chunk could not be written: the worker has ended, and the hasher waits for ever. -/
theorem unrecorded_waits : ∃ s p, Reachable (Hub.step gated) Libre ⟨none, none, none, none, []⟩ s ∧
    s.proc = some p ∧ (∀ k < gated.workers, (p.workers k).phase = .ended) ∧ p.failed = false ∧
      p.done 0 = false ∧ ∀ read, (Hub.step gated s (.hash read)).isSome = false := by
  exact ⟨_, _, reachable_run _ unrecorded_run, rfl, by decide, rfl, rfl, by decide⟩

end Chatlink.Hub
