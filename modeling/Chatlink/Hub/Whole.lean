import Chatlink.Hub.Workers

/-!
# What a finished download is

The hasher reads chunks that are done and workers write chunks that are not, so the bytes that were
hashed are still those of the part file when it gets its name. This rests on every body ending where
the range that was asked for ends: a body is written as it comes, and its length is judged behind it.
-/
namespace Chatlink.Hub

open Files Transition

variable {c : Config} {s s' s₀ : System} {p q : Proc} {k : ℕ}

/-- As much of a piece as is written. -/
def written (bytes : List UInt8) (torn : Option ℕ) : List UInt8 := bytes.take (torn.getD bytes.length)

/-- What is written of a piece ends within the range that was asked for. -/
def Config.Takes (c : Config) (bytes : List UInt8) (torn : Option ℕ) : Phase → Prop
  | .body r _ at_ _ => at_ + (written bytes torn).length ≤ c.finish (r.b - 1)
  | _ => True

/-- Nothing is written behind the range that was asked for. -/
def Fits (c : Config) (s : System) : Input → Prop
  | .worker k (.piece bytes torn) => ∀ p ∈ s.proc, c.Takes bytes torn (p.workers k).phase
  | _ => True

theorem written_none (bytes : List UInt8) : written bytes none = bytes := List.take_length

/-- The whole file, as far as its size and its hash tell. -/
structure Config.IsFile (c : Config) (file : List Cell) : Prop where
  length : file.length = c.size
  sha : c.digest (file.map Cell.byte) = c.sha

/-- What was hashed is what the part file holds. -/
def Config.Hashed (c : Config) (done : ℕ → Bool) (part : List Cell) : Hashing → Prop
  | .running i bytes => (∀ j < i, done j = true) ∧ bytes = (slice part 0 (min (i * CHUNK) c.size)).map Cell.byte
  | .whole bytes => (∀ j < c.chunks, done j = true) ∧ bytes = part.map Cell.byte
  | _ => True

/-- A finished download is the file, and no byte changes once it was hashed. -/
structure Config.Whole (c : Config) (s : System) (p : Proc) : Prop where
  file : p.main = .returned true → ∃ target, s.target = some target ∧ c.IsFile target
  hashed : ∀ part, s.part = some part → c.Hashed p.done part p.hash

/-! ## Chunks in the file -/

theorem finish_le (i : ℕ) (h : i < c.chunks) : c.finish i ≤ c.size := by
  have hCHUNK : 0 < CHUNK := by decide
  have hlt : i * CHUNK + 1 ≤ c.size := by
    rw [Config.chunks, ← Nat.succ_le_iff, Nat.le_div_iff_mul_le hCHUNK, Nat.succ_mul] at h
    omega
  rw [Config.finish, Config.span]
  dsimp only
  omega

/-- The chunks before one end where it starts. -/
theorem start_lt (i : ℕ) (h : i < c.chunks) : i * CHUNK < c.size := by
  have hCHUNK : 0 < CHUNK := by decide
  rw [Config.chunks, ← Nat.succ_le_iff, Nat.le_div_iff_mul_le hCHUNK, Nat.succ_mul] at h
  omega

theorem size_le (i : ℕ) (h : c.chunks ≤ i) : c.size ≤ i * CHUNK := by
  have hCHUNK : 0 < CHUNK := by decide
  have hdiv := Nat.div_add_mod (c.size + (CHUNK - 1)) CHUNK
  have hmod := Nat.mod_lt (c.size + (CHUNK - 1)) hCHUNK
  have hmul : CHUNK * c.chunks ≤ i * CHUNK := by
    rw [Nat.mul_comm]
    exact Nat.mul_le_mul_right CHUNK h
  rw [Config.chunks] at hmul
  omega

/-- What a write leaves alone as far as the hasher goes: the file's length, and the chunks before any that is not done. -/
structure Config.Spares (c : Config) (done : ℕ → Bool) (part part' : List Cell) : Prop where
  length : part'.length = part.length
  before : ∀ i, (∀ j < i, done j = true) →
    slice part' 0 (min (i * CHUNK) c.size) = slice part 0 (min (i * CHUNK) c.size)

theorem spares_refl (done : ℕ → Bool) (part : List Cell) : c.Spares done part part := ⟨rfl, fun _ _ => rfl⟩

/-- A write to a chunk that is not done. -/
theorem spares_put {done : ℕ → Bool} {part xs : List Cell} {at_ chunk : ℕ} (hpart : part.length = c.size)
    (hchunk : done chunk = false) (hat : chunk * CHUNK ≤ at_) (hend : at_ + xs.length ≤ c.size) :
    c.Spares done part (put part at_ xs) := by
  refine ⟨?_, fun i hi => ?_⟩
  · by_cases hx : xs = []
    · rw [hx, put_nil]
    · rw [length_put hx]
      omega
  · have hle : i ≤ chunk := by
      by_contra hlt
      rw [hi chunk (by omega)] at hchunk
      cases hchunk
    have hbefore := (Nat.mul_le_mul_right CHUNK hle).trans hat
    exact slice_put_before (by omega) (by omega)

theorem Config.Hashed.spared {done done' : ℕ → Bool} {part part' : List Cell} {hash : Hashing}
    (h : c.Hashed done part hash) (hpart : part.length = c.size) (hspares : c.Spares done part part')
    (hdone : ∀ i, done i = true → done' i = true) : c.Hashed done' part' hash := by
  cases hash with
  | running i bytes => exact ⟨fun j hj => hdone j (h.1 j hj), by rw [h.2, hspares.before i h.1]⟩
  | whole bytes =>
    have hall := hspares.before c.chunks h.1
    rw [Nat.min_eq_right (size_le _ (Nat.le_refl _)), slice_all hpart.le,
      slice_all (hspares.length.trans hpart).le] at hall
    exact ⟨fun j hj => hdone j (h.1 j hj), by rw [h.2, hall]⟩
  | stopped => trivial
  | broken => trivial

theorem start_le_finish {a b : ℕ} (h : a < b) : (c.span a).1 ≤ c.finish (b - 1) := by
  have hmul : a * CHUNK ≤ (b - 1) * CHUNK := Nat.mul_le_mul_right CHUNK (by omega)
  exact hmul.trans (Nat.le_add_right _ _)

theorem length_cells {r : Attempt} {status at_ : ℕ} {bytes : List UInt8} :
    (cells c r status at_ bytes).length = bytes.length := List.length_mapIdx

/-! ## The invariant -/

/-- A body stays within its range, and has reached its end once all its chunks are marked or skipped. -/
def Config.Inside (c : Config) : Phase → Prop
  | .body r _ at_ chunk => at_ ≤ c.finish (r.b - 1) ∧ (chunk = r.b → c.finish (r.b - 1) ≤ at_)
  | _ => True

structure Faithful (c : Config) (s : System) (p : Proc) : Prop where
  sound : Sound c p
  inside : ∀ k, c.Inside (p.workers k).phase
  ended : p.main ≠ .joining → ∀ k < c.workers, (p.workers k).phase = .ended
  stopped : p.hash = .stopped → p.failed = true
  part : p.main = .joining ∨ p.main = .matching ∨ p.main = .synced → ∃ part, s.part = some part
  hashed : ∀ part, s.part = some part → part.length = c.size ∧ c.Hashed p.done part p.hash
  matching : p.main = .matching ∨ p.main = .synced →
    ∀ part, s.part = some part → c.digest (part.map Cell.byte) = c.sha
  target : p.main = .renamed ∨ p.main = .returned true → ∃ target, s.target = some target ∧ c.IsFile target

/-- A body that stays within its range is written to chunks that are not done. -/
theorem spares_body {done : ℕ → Bool} {part xs : List Cell} {r : Attempt} {status at_ chunk : ℕ}
    (hpart : part.length = c.size) (hphase : c.PhaseOk done (.body r status at_ chunk))
    (hin : c.Inside (.body r status at_ chunk)) (hend : at_ + xs.length ≤ c.finish (r.b - 1)) :
    c.Spares done part (put part at_ xs) := by
  obtain ⟨hr, -, hb, hat, hmissing⟩ := hphase
  obtain hlt | heq := hb.lt_or_eq
  · have hsize := finish_le (c := c) (r.b - 1) (by have := hr.stop; have := hr.task.chunks; omega)
    exact spares_put hpart (hmissing chunk (Nat.le_refl _) hlt) (hat hlt) (hend.trans hsize)
  · have hnil : xs = [] := by
      have hover := hin.2 heq
      exact List.eq_nil_of_length_eq_zero (by omega)
    rw [hnil, put_nil]
    exact spares_refl _ _

theorem Faithful.whole (hs : Faithful c s p) : c.Whole s p :=
  ⟨fun h => hs.target (.inr h), fun part h => (hs.hashed part h).2⟩

/-- A worker that goes on writes to no chunk that is done. -/
theorem Faithful.set (hs : Faithful c s p) (hk : k < c.workers) (hne : (p.workers k).phase ≠ .ended)
    (hsound : Sound c q) {w : Worker} (hworkers : q.workers = Function.update p.workers k w)
    (hmain : q.main = p.main) (hhash : q.hash = p.hash) (hdone : ∀ i, p.done i = true → q.done i = true)
    (hfailed : p.failed = true → q.failed = true) (hinside : c.Inside w.phase)
    (hpart : ∀ part, s.part = some part → ∃ part', s'.part = some part' ∧ c.Spares p.done part part') :
    Faithful c s' q := by
  have hjoining : p.main = .joining := by
    by_contra hmain
    exact hne (hs.ended hmain k hk)
  obtain ⟨part, hsome⟩ := hs.part (.inl hjoining)
  obtain ⟨hlength, hhashed⟩ := hs.hashed part hsome
  obtain ⟨part', hsome', hspares⟩ := hpart part hsome
  rw [hjoining] at hmain
  refine ⟨hsound, fun j => ?_, fun h => absurd hmain h, fun h => ?_, fun _ => ⟨part', hsome'⟩,
    fun part₂ h => ?_, fun h => ?_, fun h => ?_⟩
  · rw [hworkers]
    by_cases hj : j = k
    · rw [hj, Function.update_self]
      exact hinside
    · rw [Function.update_of_ne hj]
      exact hs.inside j
  · exact hfailed (hs.stopped (hhash ▸ h))
  · obtain rfl := Option.some.inj (hsome'.symm.trans h)
    rw [hhash]
    exact ⟨hspares.length.trans hlength, hhashed.spared hlength hspares hdone⟩
  · rw [hmain] at h
    simp at h
  · rw [hmain] at h
    simp at h

theorem Works.ne_ended {act : Act} (h : Works c s p k act s') : (p.workers k).phase ≠ .ended := by
  intro hended
  cases h <;> simp_all only [reduceCtorEq, or_self, exists_false]

theorem Faithful.works (hs : Faithful c s p) (hproc : s.proc = some p) (hk : k < c.workers) {act : Act}
    (hfits : Fits c s (.worker k act)) (h : Works c s p k act s') (hq : s'.proc = some q) : Faithful c s' q := by
  have hne := h.ne_ended
  have hsound : Sound c q := by
    obtain ⟨q', hq', hsound⟩ := hs.sound.works h
    obtain rfl := Option.some.inj (hq'.symm.trans hq)
    exact hsound
  have hphase := hs.sound.phase k
  have hin := hs.inside k
  have hsame : ∀ part, s.part = some part → ∃ part', s.part = some part' ∧ c.Spares p.done part part' :=
    fun part hpart => ⟨part, hpart, spares_refl _ _⟩
  cases h with
  | claim h =>
    obtain rfl := Option.some.inj hq
    exact hs.set hk hne hsound rfl rfl rfl (fun _ => id) id trivial hsame
  | quit first h hover =>
    obtain rfl := Option.some.inj hq
    exact hs.set hk hne hsound rfl rfl rfl (fun _ => id) id trivial hsame
  | scan first h hfirst =>
    obtain rfl := Option.some.inj hq
    exact hs.set hk hne hsound rfl rfl rfl (fun _ => id) id trivial hsame
  | exhausted at_ stop h hnone =>
    obtain rfl := Option.some.inj hq
    exact hs.set hk hne hsound rfl rfl rfl (fun _ => id) id trivial hsame
  | take at_ stop frm past h hsome =>
    obtain rfl := Option.some.inj hq
    exact hs.set hk hne hsound rfl rfl rfl (fun _ => id) id trivial hsame
  | through t h hnone =>
    obtain rfl := Option.some.inj hq
    exact hs.set hk hne hsound rfl rfl rfl (fun _ => id) id trivial hsame
  | ask t a b h hsome =>
    obtain rfl := Option.some.inj hq
    exact hs.set hk hne hsound rfl rfl rfl (fun _ => id) id trivial hsame
  | giveUp t h hlast =>
    obtain rfl := Option.some.inj hq
    exact hs.set hk hne hsound rfl rfl rfl (fun _ => id) (fun _ => rfl) trivial hsame
  | retry t h =>
    obtain rfl := Option.some.inj hq
    exact hs.set hk hne hsound rfl rfl rfl (fun _ => id) id trivial hsame
  | sent r h =>
    obtain rfl := Option.some.inj hq
    exact hs.set hk hne hsound rfl rfl rfl (fun _ => id) id trivial hsame
  | redirected r status location closing fetch h hfetch =>
    obtain rfl := Option.some.inj hq
    exact hs.set hk hne hsound rfl rfl rfl (fun _ => id) id trivial hsame
  | answered r status closing h =>
    obtain rfl := Option.some.inj hq
    rw [h] at hphase
    refine hs.set hk hne hsound rfl rfl rfl (fun _ => id) id ⟨?_, fun heq => ?_⟩ hsame
    · exact start_le_finish hphase.1.some
    · exact absurd heq hphase.1.some.ne
  | failed act r conn h =>
    obtain rfl := Option.some.inj hq
    exact hs.set hk hne hsound rfl rfl rfl (fun _ => id) id trivial hsame
  | wrote r status at_ chunk bytes part h hpart hpending =>
    obtain rfl := Option.some.inj hq
    rw [h] at hphase hin
    have hend : at_ + bytes.length ≤ c.finish (r.b - 1) := by
      have htakes := hfits p hproc
      rw [h] at htakes
      rwa [← written_none bytes]
    refine hs.set hk hne hsound rfl rfl rfl (fun _ => id) id ⟨hend, fun heq => ?_⟩ fun part₂ hpart₂ => ⟨_, rfl, ?_⟩
    · exact (hin.2 heq).trans (Nat.le_add_right _ _)
    · obtain rfl := Option.some.inj (hpart.symm.trans hpart₂)
      exact spares_body (hs.hashed part hpart).1 hphase hin (by rw [length_cells]; exact hend)
  | tore r status at_ chunk n bytes part h hpart hpending =>
    obtain rfl := Option.some.inj hq
    rw [h] at hphase hin
    have hend : at_ + (bytes.take n).length ≤ c.finish (r.b - 1) := by
      have htakes := hfits p hproc
      rwa [h] at htakes
    refine hs.set hk hne hsound rfl rfl rfl (fun _ => id) id trivial fun part₂ hpart₂ => ⟨_, rfl, ?_⟩
    obtain rfl := Option.some.inj (hpart.symm.trans hpart₂)
    exact spares_body (hs.hashed part hpart).1 hphase hin (by rw [length_cells]; exact hend)
  | marked r status at_ chunk state h hstate hchunk hwhole =>
    obtain rfl := Option.some.inj hq
    rw [h] at hin
    refine hs.set hk hne hsound rfl rfl rfl (fun i hi => ?_) id ⟨hin.1, fun heq => ?_⟩ hsame
    · change Function.update p.done chunk true i = true
      by_cases hne : i = chunk
      · rw [hne, Function.update_self]
      · rw [Function.update_of_ne hne, hi]
    · rwa [← heq, Nat.add_sub_cancel]
  | skipped r status at_ chunk h hchunk hwhole =>
    obtain rfl := Option.some.inj hq
    rw [h] at hin
    refine hs.set hk hne hsound rfl rfl rfl (fun _ => id) id ⟨hin.1, fun heq => ?_⟩ hsame
    rwa [← heq, Nat.add_sub_cancel]
  | finished r status at_ chunk url phase h hpending hurl hphase' =>
    obtain rfl := Option.some.inj hq
    refine hs.set hk hne hsound rfl rfl rfl (fun _ => id) id ?_ hsame
    obtain rfl | ⟨rfl, -⟩ := hphase'
    all_goals trivial

/-! ## The other threads -/

theorem Faithful.hashing (hs : Faithful c s p) (hash : Hashing) (hstopped : hash = .stopped → p.failed = true)
    (hhashed : ∀ part, s.part = some part → part.length = c.size → c.Hashed p.done part hash)
    {proc : Option Proc} {log : List Request} {state : Option (List UInt8)} :
    Faithful c { part := s.part, state, target := s.target, proc, log } { p with hash } where
  sound := hs.sound.keep rfl rfl rfl
  inside := hs.inside
  ended := hs.ended
  stopped := hstopped
  part := hs.part
  hashed part h := ⟨(hs.hashed part h).1, hhashed part h (hs.hashed part h).1⟩
  matching := hs.matching
  target := hs.target

/-- The hash goes on behind the bytes before. -/
theorem hashed_succ {done : ℕ → Bool} {part : List Cell} {i : ℕ} {bytes : List UInt8}
    (h : c.Hashed done part (.running i bytes)) (hi : i < c.chunks) (hdone : done i = true) :
    c.Hashed done part (.running (i + 1) (bytes ++ (slice part (c.span i).1 (c.span i).2).map Cell.byte)) := by
  refine ⟨fun j hj => ?_, ?_⟩
  · obtain hlt | rfl := Nat.lt_succ_iff_lt_or_eq.mp hj
    · exact h.1 j hlt
    · exact hdone
  · have hstart := start_lt i hi
    have hmin : min ((i + 1) * CHUNK) c.size = min (i * CHUNK) c.size + (c.span i).2 := by
      rw [Nat.succ_mul, Config.span]
      dsimp only
      omega
    have hat : 0 + min (i * CHUNK) c.size = (c.span i).1 := by
      rw [Nat.zero_add, Nat.min_eq_left hstart.le, Config.span]
    rw [hmin, slice_add, List.map_append, hat, h.2]

theorem hashed_whole {done : ℕ → Bool} {part : List Cell} {i : ℕ} {bytes : List UInt8}
    (h : c.Hashed done part (.running i bytes)) (hi : c.chunks ≤ i) (hpart : part.length = c.size) :
    c.Hashed done part (.whole bytes) := by
  refine ⟨fun j hj => h.1 j (by omega), ?_⟩
  rw [h.2, Nat.min_eq_right (size_le i hi), slice_all hpart.le]

/-- What the end of the threads tells: a hash that matches is that of all the bytes. -/
theorem judge_matching (hs : Faithful c s p) (hhash : ∀ i bytes, p.hash ≠ .running i bytes)
    (h : judge c p = .matching) : ∃ bytes, p.hash = .whole bytes ∧ c.digest bytes = c.sha := by
  cases hp : p.hash with
  | running i bytes => exact absurd hp (hhash i bytes)
  | broken =>
    rw [judge, hp] at h
    cases h
  | stopped =>
    rw [judge, hp, hs.stopped hp] at h
    split at h <;> cases h
  | whole bytes =>
    rw [judge, hp] at h
    split at h
    · cases h
    · cases h
    · dsimp only at h
      split_ifs at h with hfailed hsha
      exact ⟨bytes, rfl, hsha⟩

theorem judge_cases (c : Config) (p : Proc) :
    judge c p = .returned false ∨ judge c p = .matching ∨ judge c p = .mismatch := by
  unfold judge
  split
  · exact .inl rfl
  · exact .inl rfl
  · dsimp only
    split_ifs
    · exact .inl rfl
    · exact .inr (.inl rfl)
    · exact .inr (.inr rfl)

/-- `run` fails behind the threads. -/
theorem Faithful.settled (hs : Faithful c s p) (hmain : p.main ≠ .joining) {state : Option (List UInt8)}
    {proc : Option Proc} : Faithful c { s with state, proc } { p with main := .returned false } where
  sound := hs.sound.keep rfl rfl rfl
  inside := hs.inside
  ended _ := hs.ended hmain
  stopped := hs.stopped
  part := nofun
  hashed := hs.hashed
  matching := nofun
  target := nofun

theorem length_setLen {file : List Cell} {n : ℕ} : (setLen file n).length = n := by
  rw [setLen, List.length_append, List.length_take, List.length_replicate]
  omega

theorem faithful_start (part : List Cell) (had : ℕ → Bool) (state : Option (List UInt8)) (target : Option (List Cell))
    (log : List Request) : Faithful c
    { part := some (setLen part c.size), state, target, proc := some (Proc.start had), log } (Proc.start had) where
  sound := sound_start had
  inside _ := trivial
  ended h := absurd rfl h
  stopped := nofun
  part _ := ⟨_, rfl⟩
  hashed part' h := by
    obtain rfl := Option.some.inj h
    refine ⟨length_setLen, fun j hj => absurd hj (Nat.not_lt_zero j), ?_⟩
    rw [Nat.zero_mul, Nat.zero_min, slice_zero, List.map_nil]
  matching := nofun
  target := nofun

theorem Faithful.step (hs : ∀ p, s.proc = some p → Faithful c s p) {inp : Input} (hfits : Fits c s inp)
    (h : step c s inp = some s') (hq : s'.proc = some q) : Faithful c s' q := by
  cases moves_of_step h with
  | opened o part state hproc hpart hstate htarget => exact absurd (hproc.symm.trans hq) nofun
  | started hproc htarget =>
    obtain rfl := Option.some.inj hq
    exact faithful_start _ _ _ _ _
  | worked p k act s' hproc hk h => exact (hs p hproc).works hproc hk hfits h hq
  | killed p hproc => cases hq
  | hashedAll p i bytes read hproc hhash hi =>
    obtain rfl := Option.some.inj hq
    refine (hs p hproc).hashing (.whole bytes) nofun fun part hpart hlength => ?_
    exact hashed_whole (hhash ▸ ((hs p hproc).hashed part hpart).2) hi hlength
  | hashed p i bytes part read hproc hpart hhash hi hdone hfile =>
    obtain rfl := Option.some.inj hq
    refine (hs p hproc).hashing (.running _ _) nofun fun part₂ hpart₂ _ => ?_
    obtain rfl := Option.some.inj (hpart.symm.trans hpart₂)
    exact hashed_succ (hhash ▸ ((hs p hproc).hashed part hpart).2) hi hdone
  | unhashed p read hash hproc hhash =>
    obtain rfl := Option.some.inj hq
    obtain rfl | ⟨rfl, hfailed⟩ := hhash
    · exact (hs p hproc).hashing .broken nofun fun _ _ _ => trivial
    · exact (hs p hproc).hashing .stopped (fun _ => hfailed) fun _ _ _ => trivial
  | flushed p synced flush hproc =>
    obtain rfl := Option.some.inj hq
    obtain ⟨hsound, hinside, hended, hstopped, hpart, hhashed, hmatching, htarget⟩ := hs p hproc
    exact ⟨hsound.keep rfl rfl rfl, hinside, hended, hstopped, hpart, hhashed, hmatching, htarget⟩
  | joined p hproc hmain hhash hended =>
    obtain rfl := Option.some.inj hq
    have hp := hs p hproc
    refine ⟨hp.sound.keep rfl rfl rfl, hp.inside, fun _ => hended, hp.stopped, fun _ => hp.part (.inl hmain), hp.hashed,
      fun hjudge part hpart => ?_, fun hjudge => ?_⟩
    · obtain hmatching | hsynced := hjudge
      · obtain ⟨bytes, hwhole, hsha⟩ := judge_matching hp hhash hmatching
        obtain ⟨-, hhashed⟩ := hp.hashed part hpart
        rw [hwhole] at hhashed
        rwa [← hhashed.2]
      · obtain h | h | h := judge_cases c p
        all_goals cases h.symm.trans hsynced
    · obtain h | h | h := judge_cases c p
      all_goals obtain hrenamed | hreturned := hjudge
      all_goals cases h.symm.trans (by assumption)
  | mismatched p done state hproc hmain hstate =>
    obtain rfl := Option.some.inj hq
    exact (hs p hproc).settled (by rw [hmain]; nofun)
  | synced p hproc hmain =>
    obtain rfl := Option.some.inj hq
    obtain ⟨hsound, hinside, hended, hstopped, hpart, hhashed, hmatching, htarget⟩ := hs p hproc
    exact ⟨hsound.keep rfl rfl rfl, hinside, fun _ => hended (by rw [hmain]; nofun), hstopped,
      fun _ => hpart (.inr (.inl hmain)), hhashed, fun _ => hmatching (.inl hmain), nofun⟩
  | renamed p hproc hmain =>
    obtain rfl := Option.some.inj hq
    obtain ⟨hsound, hinside, hended, hstopped, hpart, hhashed, hmatching, -⟩ := hs p hproc
    obtain ⟨part, hsome⟩ := hpart (.inr (.inr hmain))
    exact ⟨hsound.keep rfl rfl rfl, hinside, fun _ => hended (by rw [hmain]; nofun), hstopped, nofun, nofun, nofun,
      fun _ => ⟨part, hsome, (hhashed part hsome).1, hmatching (.inr hmain) part hsome⟩⟩
  | unsettled p hproc hmain =>
    obtain rfl := Option.some.inj hq
    exact (hs p hproc).settled hmain
  | removed p hproc hmain =>
    obtain rfl := Option.some.inj hq
    obtain ⟨hsound, hinside, hended, hstopped, hpart, hhashed, hmatching, htarget⟩ := hs p hproc
    exact ⟨hsound.keep rfl rfl rfl, hinside, fun _ => hended (by rw [hmain]; nofun), hstopped, nofun, hhashed, nofun,
      fun _ => htarget (.inl hmain)⟩

/-! ## Every run -/

/-- If every body ends where the range that was asked for ends, a download that returns has left the
file, and what was hashed stays what the part file holds. -/
theorem finished_whole (hproc : s₀.proc = none) (h : Reachable (Hub.step c) (Fits c) s₀ s) (hp : s.proc = some p) :
    c.Whole s p := by
  have hinv : ∀ p, s.proc = some p → Faithful c s p := by
    refine h.invariant (I := fun s => ∀ p, s.proc = some p → Faithful c s p) ?_ fun s inp s' hfits hstep hs p hp => ?_
    · exact fun p hp => absurd (hproc.symm.trans hp) nofun
    · exact Faithful.step hs hfits hstep hp
  exact (hinv p hp).whole

instance (bytes : List UInt8) (torn : Option ℕ) : DecidablePred (c.Takes bytes torn)
  | .body r _ at_ _ => inferInstanceAs (Decidable (at_ + (written bytes torn).length ≤ c.finish (r.b - 1)))
  | .claiming | .claimed _ | .scanning _ _ | .trying _ | .asking _ | .asked _ | .failing _ | .ended => .isTrue trivial

instance (s : System) : DecidablePred (Fits c s)
  | .worker k (.piece bytes torn) => inferInstanceAs (Decidable (∀ p ∈ s.proc, c.Takes bytes torn (p.workers k).phase))
  | .worker _ .go | .worker _ (.send _) | .worker _ (.redirect _ _ _) | .worker _ (.head _ _) | .worker _ (.mark _)
  | .worker _ .finish | .worker _ .error | .start _ | .hash _ | .flush _ | .join | .settle _ | .kill => .isTrue trivial

theorem three_bytes_run : ((replay (Hub.step gated) (fun s inp => decide (Fits gated s inp)) ⟨none, none, none, none, []⟩
    (asking ++ answering 206 [1, 2, 3] true ++ ending)).bind System.proc).map Proc.main = some (.returned true) := by
  decide +kernel

/-- Three bytes that are three bytes. -/
theorem three_bytes_whole : ∃ s p, Reachable (Hub.step gated) (Fits gated) ⟨none, none, none, none, []⟩ s ∧
    s.proc = some p ∧ p.main = .returned true ∧ gated.Whole s p := by
  obtain ⟨p, hproc, hmain⟩ := Option.map_eq_some_iff.mp three_bytes_run
  obtain ⟨s, hs, hp⟩ := Option.bind_eq_some_iff.mp hproc
  have hrun := (reachable_of_replay _ hs .refl).mono fun _ _ => of_decide_eq_true
  exact ⟨s, p, hrun, hp, hmain, finished_whole rfl hrun hp⟩

/-- Four bytes for three: the attempt fails, the next has nothing to ask for. -/
theorem overlong_run : ((run (Hub.step gated) ⟨none, none, none, none, []⟩
    (asking ++ answering 206 [1, 2, 3, 4] true ++ [.worker 0 .go, .worker 0 .go] ++ ending)).bind fun s =>
      s.proc.map fun p => (p.main, s.target.map List.length)) = some (.returned true, some 4) := by
  decide +kernel

/-- The file is left with four bytes. -/
theorem overlong_finished : ∃ s p, Reachable (Hub.step gated) Libre ⟨none, none, none, none, []⟩ s ∧
    s.proc = some p ∧ p.main = .returned true ∧ s.target.map List.length = some 4 ∧ ¬gated.Whole s p := by
  obtain ⟨s, hs, hend⟩ := Option.bind_eq_some_iff.mp overlong_run
  obtain ⟨p, hp, hpair⟩ := Option.map_eq_some_iff.mp hend
  obtain ⟨hmain, htarget⟩ := Prod.mk.inj hpair
  have hrun : Reachable (Hub.step gated) Libre ⟨none, none, none, none, []⟩ s :=
    (reachable_of_replay _ hs .refl).mono fun _ _ _ => trivial
  refine ⟨s, p, hrun, hp, hmain, htarget, fun h => ?_⟩
  obtain ⟨target, hfile, hlength, -⟩ := h.file hmain
  rw [hfile] at htarget
  have hfour : target.length = 4 := Option.some.inj htarget
  exact absurd (hfour.symm.trans hlength) (by decide)

end Chatlink.Hub
