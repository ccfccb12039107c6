import Chatlink.Hub.Download
import Chatlink.Lib.Sha2

/-!
# The workers

Each worker owns the chunks it has taken and not gone through. No two own the same chunk, only its
owner marks a chunk, and what a worker asks for and writes is not marked.
-/
namespace Chatlink.Hub

open Files Transition

variable {c : Config} {s s' : System} {p : Proc} {k : ℕ}

/-! ## Missing chunks -/

theorem missing_some {done : ℕ → Bool} {frm stop a b : ℕ} (h : missing done frm stop = some (a, b)) :
    frm ≤ a ∧ a < b ∧ b ≤ stop ∧ (∀ i, frm ≤ i → i < a → done i = true) ∧ (∀ i, a ≤ i → i < b → done i = false) ∧
      (b = stop ∨ done b = true) := by
  obtain ⟨first, hfirst, hb⟩ := Option.bind_eq_some_iff.mp h
  obtain ⟨rfl, rfl⟩ := Prod.mk.inj (Option.some.inj hb)
  rw [List.find?_range'_eq_some] at hfirst
  obtain ⟨hmissing, hmem, hbefore⟩ := hfirst
  rw [List.mem_range'_1] at hmem
  have hbefore' : ∀ i, frm ≤ i → i < first → done i = true := fun i h₁ h₂ => by simpa using hbefore i h₁ h₂
  have hmissing' : done first = false := by simpa using hmissing
  cases hnext : (List.range' first (stop - first)).find? done with
  | none =>
    rw [List.find?_range'_eq_none] at hnext
    rw [Option.getD_none]
    exact ⟨hmem.1, by omega, Nat.le_refl _, hbefore', fun i h₁ h₂ => by simpa using hnext i h₁ (by omega), .inl rfl⟩
  | some past =>
    rw [List.find?_range'_eq_some] at hnext
    obtain ⟨hdone, hpast, hbetween⟩ := hnext
    rw [List.mem_range'_1] at hpast
    have hne : first ≠ past := by
      rintro rfl
      rw [hmissing'] at hdone
      cases hdone
    rw [Option.getD_some]
    exact ⟨hmem.1, by omega, by omega, hbefore', fun i h₁ h₂ => by simpa using hbetween i h₁ h₂, .inr hdone⟩

theorem missing_none {done : ℕ → Bool} {frm stop : ℕ} (h : missing done frm stop = none) :
    ∀ i, frm ≤ i → i < stop → done i = true := by
  intro i hfrm hstop
  cases hfind : (List.range' frm (stop - frm)).find? fun i => !done i with
  | none =>
    rw [List.find?_range'_eq_none] at hfind
    simpa using hfind i hfrm (by omega)
  | some first =>
    rw [missing, hfind] at h
    cases h

/-! ## One step -/

/-- What a worker's step can do. -/
inductive Works (c : Config) (s : System) (p : Proc) (k : ℕ) : Act → System → Prop
  | claim (h : (p.workers k).phase = .claiming) :
      Works c s p k .go { s with proc := some ({ p with next := p.next + c.run }.setWorker k
        { p.workers k with phase := .claimed p.next }) }
  | quit (first : ℕ) (h : (p.workers k).phase = .claimed first) (hover : c.chunks ≤ first ∨ p.failed = true) :
      Works c s p k .go { s with proc := some (p.setWorker k { p.workers k with phase := .ended }) }
  | scan (first : ℕ) (h : (p.workers k).phase = .claimed first) (hfirst : first < c.chunks) :
      Works c s p k .go { s with proc := some (p.setWorker k
        { p.workers k with phase := .scanning first (min (first + c.run) c.chunks) }) }
  | exhausted (at_ stop : ℕ) (h : (p.workers k).phase = .scanning at_ stop) (hnone : missing p.done at_ stop = none) :
      Works c s p k .go { s with proc := some (p.setWorker k { p.workers k with phase := .claiming }) }
  | take (at_ stop frm past : ℕ) (h : (p.workers k).phase = .scanning at_ stop)
      (hsome : missing p.done at_ stop = some (frm, past)) :
      Works c s p k .go { s with proc := some (p.setWorker k
        { p.workers k with phase := .trying ⟨1, frm, past, stop⟩ }) }
  | through (t : Task) (h : (p.workers k).phase = .trying t) (hnone : missing p.done t.frm t.stop = none) :
      Works c s p k .go { s with proc := some (p.setWorker k
        { p.workers k with phase := .scanning t.past t.stop }) }
  | ask (t : Task) (a b : ℕ) (h : (p.workers k).phase = .trying t) (hsome : missing p.done t.frm t.stop = some (a, b)) :
      Works c s p k .go { s with proc := some ({ p with fetched := p.fetched ++ List.range' a (b - a) }.setWorker k
        { p.workers k with phase := .asking ⟨t, a, b, .begin (p.url.getD c.first)
          (c.headers (p.url.getD c.first) a b)⟩ }) }
  | giveUp (t : Task) (h : (p.workers k).phase = .failing t) (hlast : t.attempt = ATTEMPTS) :
      Works c s p k .go { s with proc := some ({ p with failed := true }.setWorker k
        { p.workers k with phase := .ended }) }
  | retry (t : Task) (h : (p.workers k).phase = .failing t) :
      Works c s p k .go { s with proc := some (p.setWorker k ⟨none, .trying { t with attempt := t.attempt + 1 }⟩) }
  | sent (r : Attempt) (h : (p.workers k).phase = .asking r) :
      Works c s p k (.send true) { s with
        log := s.log ++ [r.fetch.request (connect (p.workers k).conn r.fetch.url)]
        proc := some (p.setWorker k ⟨some (connect (p.workers k).conn r.fetch.url), .asked r⟩) }
  | redirected (r : Attempt) (status : ℕ) (location : Option String) (closing : Bool) (fetch : Fetch)
      (h : (p.workers k).phase = .asked r) (hfetch : r.fetch.redirect location = some fetch) :
      Works c s p k (.redirect status location closing) { s with proc := some (p.setWorker k
        ⟨(p.workers k).conn.map fun conn => { conn with closing }, .asking { r with fetch }⟩) }
  | answered (r : Attempt) (status : ℕ) (closing : Bool) (h : (p.workers k).phase = .asked r) :
      Works c s p k (.head status closing) { s with proc := some (p.setWorker k
        ⟨(p.workers k).conn.map fun conn => { conn with closing }, .body r status (c.span r.a).1 r.a⟩) }
  | failed (act : Act) (r : Attempt) (conn : Option Connection)
      (h : (p.workers k).phase = .asking r ∨ (p.workers k).phase = .asked r ∨
        ∃ status at_ chunk, (p.workers k).phase = .body r status at_ chunk) :
      Works c s p k act { s with proc := some (p.setWorker k ⟨conn, .failing r.task⟩) }
  | wrote (r : Attempt) (status at_ chunk : ℕ) (bytes : List UInt8) (part : List Cell)
      (h : (p.workers k).phase = .body r status at_ chunk) (hpart : s.part = some part)
      (hpending : chunk < r.b → at_ < c.finish chunk) :
      Works c s p k (.piece bytes none) { s with
        part := some (put part at_ (cells c r status at_ bytes))
        proc := some (p.setWorker k { p.workers k with phase := .body r status (at_ + bytes.length) chunk }) }
  | tore (r : Attempt) (status at_ chunk n : ℕ) (bytes : List UInt8) (part : List Cell)
      (h : (p.workers k).phase = .body r status at_ chunk) (hpart : s.part = some part)
      (hpending : chunk < r.b → at_ < c.finish chunk) :
      Works c s p k (.piece bytes (some n)) { s with
        part := some (put part at_ (cells c r status at_ (bytes.take n)))
        proc := some (p.setWorker k { p.workers k with phase := .failing r.task }) }
  | marked (r : Attempt) (status at_ chunk : ℕ) (state : List UInt8)
      (h : (p.workers k).phase = .body r status at_ chunk) (hstate : s.state = some state)
      (hchunk : chunk < r.b) (hwhole : c.finish chunk ≤ at_) :
      Works c s p k (.mark true) { s with
        state := some (put state chunk [1])
        proc := some ({ p with done := Function.update p.done chunk true }.setWorker k
          { p.workers k with phase := .body r status at_ (chunk + 1) }) }
  | skipped (r : Attempt) (status at_ chunk : ℕ) (h : (p.workers k).phase = .body r status at_ chunk)
      (hchunk : chunk < r.b) (hwhole : c.finish chunk ≤ at_) :
      Works c s p k (.mark false) { s with
        proc := some (p.setWorker k { p.workers k with phase := .body r status at_ (chunk + 1) }) }
  | finished (r : Attempt) (status at_ chunk : ℕ) (url : Option Url) (phase : Phase)
      (h : (p.workers k).phase = .body r status at_ chunk) (hpending : chunk < r.b → at_ < c.finish chunk)
      (hurl : url = if status ∈ [401, 403, 410] then none else some r.fetch.url)
      (hphase : phase = .failing r.task ∨
        phase = .scanning r.task.past r.task.stop ∧ status = 206 ∧ at_ = c.finish (r.b - 1)) :
      Works c s p k .finish { s with proc := some ({ p with url }.setWorker k { p.workers k with phase }) }

theorem works_of_go (h : workerGo c s p k = some s') : Works c s p k .go s' := by
  unfold workerGo at h
  dsimp only at h
  split at h
  · rename_i hphase
    obtain rfl := Option.some.inj h
    exact .claim hphase
  · rename_i first hphase
    split_ifs at h with hover
    · obtain rfl := Option.some.inj h
      exact .quit first hphase hover
    · obtain rfl := Option.some.inj h
      exact .scan first hphase (by omega)
  · rename_i at_ stop hphase
    split at h
    · rename_i hnone
      obtain rfl := Option.some.inj h
      exact .exhausted at_ stop hphase hnone
    · rename_i frm past hsome
      obtain rfl := Option.some.inj h
      exact .take at_ stop frm past hphase hsome
  · rename_i t hphase
    split at h
    · rename_i hnone
      obtain rfl := Option.some.inj h
      exact .through t hphase hnone
    · rename_i a b hsome
      obtain rfl := Option.some.inj h
      exact .ask t a b hphase hsome
  · rename_i t hphase
    split_ifs at h with hlast
    · obtain rfl := Option.some.inj h
      exact .giveUp t hphase hlast
    · obtain rfl := Option.some.inj h
      exact .retry t hphase
  · cases h

theorem works_of_act {act : Act} (h : workerAct c s p k act = some s') : Works c s p k act s' := by
  cases act with
  | go => exact works_of_go h
  | send opened =>
    unfold workerAct at h
    dsimp only at h
    split at h
    · rename_i r hphase
      cases opened with
      | true =>
        obtain rfl := Option.some.inj h
        exact .sent r hphase
      | false =>
        obtain rfl := Option.some.inj h
        exact .failed _ r _ (.inl hphase)
    · cases h
  | redirect status location closing =>
    unfold workerAct at h
    dsimp only at h
    split at h
    · rename_i r hphase
      split_ifs at h
      split at h
      · rename_i fetch hfetch
        obtain rfl := Option.some.inj h
        exact .redirected r status location closing fetch hphase hfetch
      · obtain rfl := Option.some.inj h
        exact .failed _ r _ (.inr (.inl hphase))
    · cases h
  | head status closing =>
    unfold workerAct at h
    dsimp only at h
    split at h
    · rename_i r hphase
      split_ifs at h
      obtain rfl := Option.some.inj h
      exact .answered r status closing hphase
    · cases h
  | piece bytes torn =>
    unfold workerAct at h
    dsimp only at h
    split at h
    · rename_i r status at_ chunk part hphase hpart
      split_ifs at h with hpending
      push Not at hpending
      split at h
      · obtain rfl := Option.some.inj h
        exact .wrote r status at_ chunk bytes part hphase hpart hpending
      · rename_i n
        obtain rfl := Option.some.inj h
        exact .tore r status at_ chunk n bytes part hphase hpart hpending
    · cases h
  | mark written =>
    unfold workerAct at h
    dsimp only at h
    split at h
    · rename_i r status at_ chunk state hphase hstate
      split_ifs at h with hpending hwritten
      · obtain rfl := Option.some.inj h
        subst hwritten
        exact .marked r status at_ chunk state hphase hstate hpending.1 hpending.2
      · obtain rfl := Option.some.inj h
        rw [Bool.not_eq_true] at hwritten
        subst hwritten
        exact .skipped r status at_ chunk hphase hpending.1 hpending.2
    · cases h
  | finish =>
    unfold workerAct at h
    dsimp only at h
    split at h
    · rename_i r status at_ chunk hphase
      generalize hurl : (if status ∈ [401, 403, 410] then none else some r.fetch.url) = url at h
      split_ifs at h with hpending hbad
      · obtain rfl := Option.some.inj h
        push Not at hpending
        exact .finished r status at_ chunk url _ hphase hpending hurl.symm (.inl rfl)
      · obtain rfl := Option.some.inj h
        push Not at hpending hbad
        exact .finished r status at_ chunk url _ hphase hpending hurl.symm (.inr ⟨rfl, hbad.1, hbad.2⟩)
    · cases h
  | error =>
    unfold workerAct at h
    dsimp only at h
    split at h
    · rename_i r hphase
      obtain rfl := Option.some.inj h
      exact .failed _ r _ (.inr (.inl hphase))
    · rename_i r status at_ chunk hphase
      split_ifs at h with hpending
      obtain rfl := Option.some.inj h
      exact .failed _ r _ (.inr (.inr ⟨status, at_, chunk, hphase⟩))
    · cases h

/-! ## Chunks and their owners -/

/-- The chunks that a worker has taken and not gone through. -/
def Config.Owns (c : Config) (i : ℕ) : Phase → Prop
  | .claimed first => first ≤ i ∧ i < first + c.run
  | .scanning at_ stop => at_ ≤ i ∧ i < stop
  | .trying t => t.frm ≤ i ∧ i < t.stop
  | .failing t => t.frm ≤ i ∧ i < t.stop
  | .asking r => r.task.frm ≤ i ∧ i < r.task.stop
  | .asked r => r.task.frm ≤ i ∧ i < r.task.stop
  | .body r _ _ _ => r.task.frm ≤ i ∧ i < r.task.stop
  | _ => False

structure Task.Within (t : Task) (c : Config) : Prop where
  some : t.frm < t.past
  past : t.past ≤ t.stop
  chunks : t.stop ≤ c.chunks

/-- An attempt at some of a task's chunks. -/
structure Attempt.Within (r : Attempt) (c : Config) : Prop where
  task : r.task.Within c
  frm : r.task.frm ≤ r.a
  some : r.a < r.b
  stop : r.b ≤ r.task.stop

/-- What a worker is at is part of the file, and was missing. -/
def Config.PhaseOk (c : Config) (done : ℕ → Bool) : Phase → Prop
  | .scanning _ stop => stop ≤ c.chunks
  | .trying t => t.Within c
  | .failing t => t.Within c
  | .asking r => r.Within c ∧ ∀ i, r.a ≤ i → i < r.b → done i = false
  | .asked r => r.Within c ∧ ∀ i, r.a ≤ i → i < r.b → done i = false
  | .body r _ at_ chunk => r.Within c ∧ r.a ≤ chunk ∧ chunk ≤ r.b ∧ (chunk < r.b → chunk * CHUNK ≤ at_) ∧
      ∀ i, chunk ≤ i → i < r.b → done i = false
  | _ => True

structure Sound (c : Config) (p : Proc) : Prop where
  apart : ∀ j k i, c.Owns i (p.workers j).phase → c.Owns i (p.workers k).phase → j = k
  below : ∀ k i, c.Owns i (p.workers k).phase → i < p.next
  phase : ∀ k, c.PhaseOk p.done (p.workers k).phase

theorem sound_start (had : ℕ → Bool) : Sound c (Proc.start had) :=
  ⟨fun _ _ _ h => absurd h id, fun _ _ h => absurd h id, fun _ => trivial⟩

theorem phaseOk_congr {done done' : ℕ → Bool} {phase : Phase} (h : c.PhaseOk done phase)
    (hdone : ∀ i, c.Owns i phase → done' i = done i) : c.PhaseOk done' phase := by
  have hmissing (r : Attempt) (hr : r.Within c) (x : ℕ) (hx : r.a ≤ x)
      (howns : ∀ i, r.task.frm ≤ i ∧ i < r.task.stop → done' i = done i)
      (hfalse : ∀ i, x ≤ i → i < r.b → done i = false) : ∀ i, x ≤ i → i < r.b → done' i = false := by
    intro i hi hb
    have hfrm := hr.frm
    have hstop := hr.stop
    rw [howns i ⟨by omega, by omega⟩]
    exact hfalse i hi hb
  cases phase with
  | asking r => exact ⟨h.1, hmissing r h.1 r.a (Nat.le_refl _) hdone h.2⟩
  | asked r => exact ⟨h.1, hmissing r h.1 r.a (Nat.le_refl _) hdone h.2⟩
  | body r status at_ chunk =>
    obtain ⟨hr, ha, hb, hat, hfalse⟩ := h
    exact ⟨hr, ha, hb, hat, hmissing r hr chunk ha hdone hfalse⟩
  | _ => exact h

/-- One worker goes on: it may take chunks that nobody has taken, and marks its own only. -/
theorem Sound.set (hs : Sound c p) {q : Proc} {w : Worker} (hworkers : q.workers = Function.update p.workers k w)
    (hnext : p.next ≤ q.next) (hown : ∀ i, c.Owns i w.phase → i < q.next ∧ (c.Owns i (p.workers k).phase ∨ p.next ≤ i))
    (hdone : ∀ i, ¬c.Owns i (p.workers k).phase → q.done i = p.done i) (hok : c.PhaseOk q.done w.phase) :
    Sound c q := by
  have hself : q.workers k = w := by rw [hworkers, Function.update_self]
  have hother : ∀ j ≠ k, q.workers j = p.workers j := fun j hj => by rw [hworkers, Function.update_of_ne hj]
  have hcross : ∀ j ≠ k, ∀ i, c.Owns i (p.workers j).phase → ¬c.Owns i w.phase := by
    intro j hj i hi hw
    obtain ⟨-, hold | hnew⟩ := hown i hw
    · exact hj (hs.apart j k i hi hold)
    · exact absurd (hs.below j i hi) (by omega)
  refine ⟨fun j l i hi hl => ?_, fun j i hi => ?_, fun j => ?_⟩
  · by_cases hj : j = k <;> by_cases hlk : l = k
    · rw [hj, hlk]
    · subst hj
      rw [hself] at hi
      rw [hother l hlk] at hl
      exact absurd hi (hcross l hlk i hl)
    · subst hlk
      rw [hself] at hl
      rw [hother j hj] at hi
      exact absurd hl (hcross j hj i hi)
    · rw [hother j hj] at hi
      rw [hother l hlk] at hl
      exact hs.apart j l i hi hl
  · by_cases hj : j = k
    · rw [hj, hself] at hi
      exact (hown i hi).1
    · rw [hother j hj] at hi
      exact (hs.below j i hi).trans_le hnext
  · by_cases hj : j = k
    · rw [hj, hself]
      exact hok
    · rw [hother j hj]
      exact phaseOk_congr (hs.phase j) fun i hi => hdone i fun hk => hj (hs.apart j k i hi hk)

/-- One worker goes on without taking or marking chunks. -/
theorem Sound.goOn (hs : Sound c p) {q : Proc} {w : Worker} (hworkers : q.workers = Function.update p.workers k w)
    (hnext : q.next = p.next) (hdone : q.done = p.done) (hown : ∀ i, c.Owns i w.phase → c.Owns i (p.workers k).phase)
    (hok : c.PhaseOk p.done w.phase) : Sound c q :=
  hs.set hworkers hnext.ge (fun i hi => ⟨hnext ▸ hs.below k i (hown i hi), .inl (hown i hi)⟩)
    (fun i _ => by rw [hdone]) (hdone ▸ hok)

/-- Only the last chunk may be shorter than the others. -/
theorem le_of_finish {chunk at_ b : ℕ} (hb : chunk + 1 < b) (hbc : b ≤ c.chunks) (hwhole : c.finish chunk ≤ at_) :
    (chunk + 1) * CHUNK ≤ at_ := by
  have hCHUNK : 0 < CHUNK := by decide
  have hchunks : (chunk + 1) * CHUNK + 1 ≤ c.size := by
    have hlt : chunk + 1 < c.chunks := by omega
    rw [Config.chunks, ← Nat.succ_le_iff, Nat.le_div_iff_mul_le hCHUNK, Nat.succ_mul] at hlt
    omega
  rw [Nat.succ_mul] at hchunks ⊢
  rw [Config.finish, Config.span] at hwhole
  dsimp only at hwhole
  omega

theorem Sound.works (hs : Sound c p) {act : Act} (h : Works c s p k act s') : ∃ q, s'.proc = some q ∧ Sound c q := by
  have hok := hs.phase k
  cases h with
  | claim h =>
    refine ⟨_, rfl, hs.set rfl (Nat.le_add_right _ _) (fun i hi => ?_) (fun _ _ => rfl) trivial⟩
    exact ⟨hi.2, .inr hi.1⟩
  | quit first h hover => exact ⟨_, rfl, hs.goOn rfl rfl rfl (fun _ hi => absurd hi id) trivial⟩
  | scan first h hfirst =>
    refine ⟨_, rfl, hs.goOn rfl rfl rfl (fun i hi => ?_) (Nat.min_le_right _ _)⟩
    rw [h]
    exact ⟨hi.1, hi.2.trans_le (Nat.min_le_left _ _)⟩
  | exhausted at_ stop h hnone => exact ⟨_, rfl, hs.goOn rfl rfl rfl (fun _ hi => absurd hi id) trivial⟩
  | take at_ stop frm past h hsome =>
    obtain ⟨hfrm, hlt, hpast, -⟩ := missing_some hsome
    rw [h] at hok
    refine ⟨_, rfl, hs.goOn rfl rfl rfl (fun i hi => ?_) ⟨hlt, hpast, hok⟩⟩
    rw [h]
    exact ⟨hfrm.trans hi.1, hi.2⟩
  | through t h hnone =>
    rw [h] at hok
    refine ⟨_, rfl, hs.goOn rfl rfl rfl (fun i hi => ?_) hok.chunks⟩
    rw [h]
    exact ⟨hok.some.le.trans hi.1, hi.2⟩
  | ask t a b h hsome =>
    obtain ⟨hfrm, hlt, hstop, -, hmissing, -⟩ := missing_some hsome
    rw [h] at hok
    refine ⟨_, rfl, hs.goOn rfl rfl rfl (fun i hi => ?_) ⟨⟨hok, hfrm, hlt, hstop⟩, hmissing⟩⟩
    rw [h]
    exact hi
  | giveUp t h hlast => exact ⟨_, rfl, hs.goOn rfl rfl rfl (fun _ hi => absurd hi id) trivial⟩
  | retry t h =>
    rw [h] at hok
    refine ⟨_, rfl, hs.goOn rfl rfl rfl (fun i hi => ?_) ⟨hok.some, hok.past, hok.chunks⟩⟩
    rw [h]
    exact hi
  | sent r h =>
    rw [h] at hok
    exact ⟨_, rfl, hs.goOn rfl rfl rfl (fun i hi => h ▸ hi) hok⟩
  | redirected r status location closing fetch h hfetch =>
    rw [h] at hok
    obtain ⟨hr, hmissing⟩ := hok
    exact ⟨_, rfl, hs.goOn rfl rfl rfl (fun i hi => h ▸ hi) ⟨⟨hr.task, hr.frm, hr.some, hr.stop⟩, hmissing⟩⟩
  | answered r status closing h =>
    rw [h] at hok
    obtain ⟨hr, hmissing⟩ := hok
    exact ⟨_, rfl, hs.goOn rfl rfl rfl (fun i hi => h ▸ hi)
      ⟨hr, Nat.le_refl _, hr.some.le, fun _ => Nat.le_refl _, hmissing⟩⟩
  | failed act r conn h =>
    obtain h | h | ⟨status, at_, chunk, h⟩ := h
    all_goals
      rw [h] at hok
      exact ⟨_, rfl, hs.goOn rfl rfl rfl (fun i hi => h ▸ hi) hok.1.task⟩
  | wrote r status at_ chunk bytes part h hpart hpending =>
    rw [h] at hok
    obtain ⟨hr, ha, hb, hat, hmissing⟩ := hok
    exact ⟨_, rfl, hs.goOn rfl rfl rfl (fun i hi => h ▸ hi)
      ⟨hr, ha, hb, fun hlt => (hat hlt).trans (Nat.le_add_right _ _), hmissing⟩⟩
  | tore r status at_ chunk n bytes part h hpart hpending =>
    rw [h] at hok
    exact ⟨_, rfl, hs.goOn rfl rfl rfl (fun i hi => h ▸ hi) hok.1.task⟩
  | marked r status at_ chunk state h hstate hchunk hwhole =>
    rw [h] at hok
    obtain ⟨hr, ha, hb, -, hmissing⟩ := hok
    have hown : c.Owns chunk (p.workers k).phase := by
      rw [h]
      exact ⟨hr.frm.trans ha, hchunk.trans_le hr.stop⟩
    refine ⟨_, rfl, hs.set rfl (Nat.le_refl _) (fun i hi => ⟨hs.below k i (h ▸ hi), .inl (h ▸ hi)⟩) (fun i hi => ?_)
      ⟨hr, ha.trans (Nat.le_succ _), hchunk, fun hlt => ?_, fun i hi hib => ?_⟩⟩
    · exact Function.update_of_ne (fun heq => hi (by rw [heq]; exact hown)) _ _
    · exact le_of_finish hlt (hr.stop.trans hr.task.chunks) hwhole
    · have hne : i ≠ chunk := by omega
      exact (Function.update_of_ne hne _ _).trans (hmissing i (by omega) hib)
  | skipped r status at_ chunk h hchunk hwhole =>
    rw [h] at hok
    obtain ⟨hr, ha, hb, -, hmissing⟩ := hok
    exact ⟨_, rfl, hs.goOn rfl rfl rfl (fun i hi => h ▸ hi) ⟨hr, ha.trans (Nat.le_succ _), hchunk,
      fun hlt => le_of_finish hlt (hr.stop.trans hr.task.chunks) hwhole, fun i hi => hmissing i (by omega)⟩⟩
  | finished r status at_ chunk url phase h hpending hurl hphase =>
    rw [h] at hok
    obtain ⟨hr, -⟩ := hok
    obtain rfl | ⟨rfl, -, -⟩ := hphase
    · exact ⟨_, rfl, hs.goOn rfl rfl rfl (fun i hi => h ▸ hi) hr.task⟩
    · refine ⟨_, rfl, hs.goOn rfl rfl rfl (fun i hi => ?_) hr.task.chunks⟩
      rw [h]
      exact ⟨hr.task.some.le.trans hi.1, hi.2⟩

/-! ## Steps of the system -/

/-- What a step of the system can do. -/
inductive Moves (c : Config) (s : System) : Input → System → Prop
  | opened (o : Opening) (part : List Cell) (state : Option (List UInt8)) (hproc : s.proc = none)
      (hpart : part = s.part.getD [] ∨ part = setLen (s.part.getD []) c.size)
      (hstate : state = s.state ∨ state = some (s.state.getD []))
      (htarget : ∀ t, s.target = some t → t.length ≠ c.size) :
      Moves c s (.start o) { s with part := some part, state }
  | started (hproc : s.proc = none) (htarget : ∀ t, s.target = some t → t.length ≠ c.size) :
      Moves c s (.start .started) { s with
        part := some (setLen (s.part.getD []) c.size)
        state := some (s.state.getD [])
        proc := some (Proc.start (flags (s.state.getD []))) }
  | worked (p : Proc) (k : ℕ) (act : Act) (s' : System) (hproc : s.proc = some p) (hk : k < c.workers)
      (h : Works c s p k act s') : Moves c s (.worker k act) s'
  | hashedAll (p : Proc) (i : ℕ) (bytes : List UInt8) (read : Bool) (hproc : s.proc = some p)
      (h : p.hash = .running i bytes) (hi : c.chunks ≤ i) :
      Moves c s (.hash read) { s with proc := some { p with hash := .whole bytes } }
  | hashed (p : Proc) (i : ℕ) (bytes : List UInt8) (part : List Cell) (read : Bool) (hproc : s.proc = some p)
      (hpart : s.part = some part) (h : p.hash = .running i bytes) (hi : i < c.chunks) (hdone : p.done i = true)
      (hfile : c.finish i ≤ part.length) :
      Moves c s (.hash read) { s with proc := some { p with
        hash := .running (i + 1) (bytes ++ (slice part (c.span i).1 (c.span i).2).map Cell.byte) } }
  | unhashed (p : Proc) (read : Bool) (hash : Hashing) (hproc : s.proc = some p)
      (hhash : hash = .broken ∨ hash = .stopped ∧ p.failed = true) :
      Moves c s (.hash read) { s with proc := some { p with hash } }
  | flushed (p : Proc) (synced : Bool) (flush : Flushing) (hproc : s.proc = some p) :
      Moves c s (.flush synced) { s with proc := some { p with flush } }
  | joined (p : Proc) (hproc : s.proc = some p) (hmain : p.main = .joining) (hhash : ∀ i bytes, p.hash ≠ .running i bytes)
      (hended : ∀ k < c.workers, (p.workers k).phase = .ended) :
      Moves c s .join { s with proc := some { p with main := judge c p } }
  | mismatched (p : Proc) (done : Bool) (state : Option (List UInt8)) (hproc : s.proc = some p)
      (hmain : p.main = .mismatch) (hstate : state = none ∨ state = s.state) :
      Moves c s (.settle done) { s with state, proc := some { p with main := .returned false } }
  | synced (p : Proc) (hproc : s.proc = some p) (hmain : p.main = .matching) :
      Moves c s (.settle true) { s with proc := some { p with main := .synced } }
  | renamed (p : Proc) (hproc : s.proc = some p) (hmain : p.main = .synced) :
      Moves c s (.settle true) { s with part := none, target := s.part, proc := some { p with main := .renamed } }
  | unsettled (p : Proc) (hproc : s.proc = some p) (hmain : p.main ≠ .joining) :
      Moves c s (.settle false) { s with proc := some { p with main := .returned false } }
  | removed (p : Proc) (hproc : s.proc = some p) (hmain : p.main = .renamed) :
      Moves c s (.settle true) { s with state := none, proc := some { p with main := .returned true } }
  | killed (p : Proc) (hproc : s.proc = some p) : Moves c s .kill { s with proc := none }

theorem moves_of_start {o : Opening} (hproc : s.proc = none) (h : start c s o = some s') :
    Moves c s (.start o) s' := by
  unfold start at h
  split_ifs at h with hsome
  have htarget : ∀ t, s.target = some t → t.length ≠ c.size := by
    intro t ht hlen
    rw [ht] at hsome
    exact hsome (decide_eq_true hlen)
  cases o with
  | half =>
    obtain rfl := Option.some.inj h
    exact .opened .half _ _ hproc (.inl rfl) (.inl rfl) htarget
  | opened =>
    obtain rfl := Option.some.inj h
    exact .opened .opened _ _ hproc (.inl rfl) (.inr rfl) htarget
  | sized =>
    obtain rfl := Option.some.inj h
    exact .opened .sized _ _ hproc (.inr rfl) (.inr rfl) htarget
  | started =>
    obtain rfl := Option.some.inj h
    exact .started hproc htarget

theorem moves_of_hash (hproc : s.proc = some p) {read : Bool} (h : procStep c s p (.hash read) = some s') :
    Moves c s (.hash read) s' := by
  unfold procStep at h
  dsimp only at h
  split at h
  · rename_i i bytes part hhash hpart
    split_ifs at h with hi hdone hread hfailed
    · obtain rfl := Option.some.inj h
      exact .hashedAll p i bytes read hproc hhash hi
    · obtain rfl := Option.some.inj h
      exact .hashed p i bytes part read hproc hpart hhash (by omega) hdone hread.2
    · obtain rfl := Option.some.inj h
      exact .unhashed p read .broken hproc (.inl rfl)
    · obtain rfl := Option.some.inj h
      exact .unhashed p read .stopped hproc (.inr ⟨rfl, hfailed⟩)
  · cases h

theorem moves_of_flush (hproc : s.proc = some p) {synced : Bool} (h : procStep c s p (.flush synced) = some s') :
    Moves c s (.flush synced) s' := by
  unfold procStep at h
  dsimp only at h
  split at h
  · split_ifs at h
    all_goals
      obtain rfl := Option.some.inj h
      exact .flushed p synced _ hproc
  · cases h

theorem moves_of_join (hproc : s.proc = some p) (h : procStep c s p .join = some s') : Moves c s .join s' := by
  unfold procStep at h
  dsimp only at h
  split at h
  · cases h
  · cases h
  · rename_i hmain hhash _
    split_ifs at h with hended
    obtain rfl := Option.some.inj h
    exact .joined p hproc hmain hhash hended
  · cases h

theorem moves_of_settle (hproc : s.proc = some p) {done : Bool} (h : procStep c s p (.settle done) = some s') :
    Moves c s (.settle done) s' := by
  unfold procStep at h
  dsimp only at h
  split at h
  · rename_i hmain
    obtain rfl := Option.some.inj h
    refine .mismatched p done _ hproc hmain ?_
    cases done with
    | true => exact .inl rfl
    | false => exact .inr rfl
  · rename_i hmain
    obtain rfl := Option.some.inj h
    cases done with
    | true => exact .synced p hproc hmain
    | false => exact .unsettled p hproc (by rw [hmain]; nofun)
  · rename_i hmain
    split_ifs at h with hdone
    · obtain rfl := Option.some.inj h
      subst hdone
      exact .renamed p hproc hmain
    · obtain rfl := Option.some.inj h
      rw [Bool.not_eq_true] at hdone
      subst hdone
      exact .unsettled p hproc (by rw [hmain]; nofun)
  · rename_i hmain
    obtain rfl := Option.some.inj h
    cases done with
    | true => exact .removed p hproc hmain
    | false => exact .unsettled p hproc (by rw [hmain]; nofun)
  · cases h

theorem moves_of_step {inp : Input} (h : step c s inp = some s') : Moves c s inp s' := by
  cases hproc : s.proc with
  | none =>
    unfold step at h
    rw [hproc] at h
    cases inp with
    | start o => exact moves_of_start hproc h
    | _ => cases h
  | some p =>
    unfold step at h
    rw [hproc] at h
    cases inp with
    | start o => cases h
    | worker k act =>
      unfold procStep at h
      dsimp only at h
      split_ifs at h with hk
      exact .worked p k act s' hproc hk (works_of_act h)
    | hash read => exact moves_of_hash hproc h
    | flush synced => exact moves_of_flush hproc h
    | join => exact moves_of_join hproc h
    | settle done => exact moves_of_settle hproc h
    | kill =>
      obtain rfl := Option.some.inj h
      exact .killed p hproc

/-! ## Every run -/

theorem Sound.keep (hs : Sound c p) {q : Proc} (hworkers : q.workers = p.workers) (hdone : q.done = p.done)
    (hnext : q.next = p.next) : Sound c q := by
  refine ⟨?_, ?_, ?_⟩
  · rw [hworkers]
    exact hs.apart
  · rw [hworkers, hnext]
    exact hs.below
  · rw [hworkers, hdone]
    exact hs.phase

/-- A process that runs is sound. -/
def Running (c : Config) (s : System) : Prop := ∀ p, s.proc = some p → Sound c p

theorem Running.step (hs : Running c s) {inp : Input} (h : step c s inp = some s') : Running c s' := by
  intro q hq
  cases moves_of_step h with
  | opened o part state hproc hpart hstate htarget => exact absurd (hproc.symm.trans hq) nofun
  | started hproc htarget =>
    obtain rfl := Option.some.inj hq
    exact sound_start _
  | worked p k act s' hproc hk h =>
    obtain ⟨q', hq', hsound⟩ := (hs p hproc).works h
    obtain rfl := Option.some.inj (hq'.symm.trans hq)
    exact hsound
  | killed p hproc => cases hq
  | hashedAll p i bytes read hproc h hi =>
    obtain rfl := Option.some.inj hq
    exact (hs p hproc).keep rfl rfl rfl
  | hashed p i bytes part read hproc hpart h hi hdone hfile =>
    obtain rfl := Option.some.inj hq
    exact (hs p hproc).keep rfl rfl rfl
  | unhashed p read hash hproc hhash =>
    obtain rfl := Option.some.inj hq
    exact (hs p hproc).keep rfl rfl rfl
  | flushed p synced flush hproc =>
    obtain rfl := Option.some.inj hq
    exact (hs p hproc).keep rfl rfl rfl
  | joined p hproc hmain hhash hended =>
    obtain rfl := Option.some.inj hq
    exact (hs p hproc).keep rfl rfl rfl
  | mismatched p done state hproc hmain hstate =>
    obtain rfl := Option.some.inj hq
    exact (hs p hproc).keep rfl rfl rfl
  | synced p hproc hmain =>
    obtain rfl := Option.some.inj hq
    exact (hs p hproc).keep rfl rfl rfl
  | renamed p hproc hmain =>
    obtain rfl := Option.some.inj hq
    exact (hs p hproc).keep rfl rfl rfl
  | unsettled p hproc hmain =>
    obtain rfl := Option.some.inj hq
    exact (hs p hproc).keep rfl rfl rfl
  | removed p hproc hmain =>
    obtain rfl := Option.some.inj hq
    exact (hs p hproc).keep rfl rfl rfl

/-! ## Some runs -/

/-- A gated file of three bytes, over two connections. -/
def gated : Config :=
  { first := ⟨true, "hub", 443, "/file"⟩, auth := some "Bearer token", size := 3, digest := Sha2.digest
    sha := [3, 144, 88, 198, 242, 192, 203, 73, 44, 83, 59, 10, 77, 20, 239, 119,
      204, 15, 120, 171, 204, 206, 213, 40, 125, 132, 161, 162, 1, 28, 251, 129]
    connections := 2 }

/-- Its one chunk is asked for; there is none for the second worker. -/
def asking : List Input :=
  [.start .started, .worker 0 .go, .worker 1 .go, .worker 0 .go, .worker 1 .go, .worker 0 .go, .worker 0 .go
    , .worker 0 (.send true)]

/-- A body comes as an answer, and the chunk is marked if the state file can be written. -/
def answering (status : ℕ) (body : List UInt8) (written : Bool) : List Input :=
  [.worker 0 (.head status false), .worker 0 (.piece body none), .worker 0 (.mark written), .worker 0 .finish]

/-- Nothing is left to take, and the other threads end. -/
def ending : List Input :=
  [.worker 0 .go, .worker 0 .go, .worker 0 .go, .hash true, .hash true, .flush true, .flush true, .join
    , .settle true, .settle true, .settle true]

end Chatlink.Hub
