import Chatlink.Hub.Whole

/-!
# What a marked chunk is

The state file outlives the process, so a chunk that is marked in it is never asked for again. That
it holds what came in a 206 answer for its place rests on two things that are judged behind the marks:
that no body goes on behind its range, and that no other answer has a body as long as a chunk.
-/
namespace Chatlink.Hub

open Files Transition

variable {c : Config} {s s' s₀ : System} {p q : Proc} {k : ℕ}

/-- An answer that is not a 206 does not make a chunk whole. -/
def Config.Refuses (c : Config) (bytes : List UInt8) (torn : Option ℕ) : Phase → Prop
  | .body r status at_ _ => status = 206 ∨ torn.isSome = true ∨ at_ + bytes.length < c.finish r.a
  | _ => True

/-- Nothing is written behind the range that was asked for, and only a 206 answer fills a chunk. -/
def Honest (c : Config) (s : System) : Input → Prop
  | .worker k (.piece bytes torn) =>
    ∀ p ∈ s.proc, c.Takes bytes torn (p.workers k).phase ∧ c.Refuses bytes torn (p.workers k).phase
  | _ => True

/-- The bytes from `lo` up to `hi` came in 206 answers for their places. -/
def Asked (file : List Cell) (lo hi : ℕ) : Prop := ∀ j, lo ≤ j → j < hi → ∃ x, file[j]? = some ⟨x, true⟩

/-- Chunk `i` is marked in the state file. -/
def System.marked (s : System) (i : ℕ) : Bool := flags (s.state.getD []) i

/-- The part file, or the file it has become. -/
def System.file (s : System) : List Cell := (s.part.or s.target).getD []

/-- A marked chunk is a right chunk. -/
def Config.Right (c : Config) (s : System) : Prop :=
  ∀ i < c.chunks, s.marked i = true → Asked s.file (c.span i).1 (c.finish i)

/-- A resume asks for chunks that were not marked, each by one worker, and for all of them if it ends with the file. -/
structure Config.Resumes (c : Config) (s : System) (p : Proc) : Prop where
  unmarked : ∀ i ∈ p.fetched, p.had i = false
  apart : ∀ j k i, c.Owns i (p.workers j).phase → c.Owns i (p.workers k).phase → j = k
  whole : p.main = .returned true → (∀ i < c.chunks, p.had i = false → i ∈ p.fetched) ∧
    ∃ target, s.target = some target ∧ c.IsFile target

/-! ## Bytes that were asked for -/

section Asked

variable {file xs : List Cell} {lo hi mid at_ : ℕ}

theorem asked_empty (h : hi ≤ lo) : Asked file lo hi := fun j hlo hhi => absurd hhi (by omega)

theorem Asked.append (h : Asked file lo mid) (h' : Asked file mid hi) : Asked file lo hi := by
  intro j hlo hhi
  by_cases hmid : j < mid
  · exact h j hlo hmid
  · exact h' j (by omega) hhi

theorem Asked.mono {lo' hi' : ℕ} (h : Asked file lo hi) (hlo : lo ≤ lo') (hhi : hi' ≤ hi) : Asked file lo' hi' :=
  fun j hj hj' => h j (hlo.trans hj) (hj'.trans_le hhi)

/-- A write beside them leaves them alone. -/
theorem Asked.put (h : Asked file lo hi) (hd : hi ≤ at_ ∨ at_ + xs.length ≤ lo) : Asked (put file at_ xs) lo hi := by
  intro j hlo hhi
  obtain ⟨x, hx⟩ := h j hlo hhi
  refine ⟨x, ?_⟩
  obtain hbefore | hafter := hd
  · obtain ⟨hlt, -⟩ := List.getElem?_eq_some_iff.mp hx
    rw [getElem?_put_of_lt hlt (hhi.trans_le hbefore), hx]
  · rw [getElem?_put_of_ge (hafter.trans hlo), hx]

theorem asked_put (h : ∀ x ∈ xs, x.asked = true) : Asked (Files.put file at_ xs) at_ (at_ + xs.length) := by
  intro j hlo hhi
  have hself := @slice_put_self _ _ file xs at_
  have hget := congrArg (fun l => l[j - at_]?) hself
  rw [getElem?_slice, if_pos (by omega), show at_ + (j - at_) = j by omega,
    List.getElem?_eq_getElem (by omega : j - at_ < xs.length)] at hget
  have hasked := h _ (List.getElem_mem (by omega : j - at_ < xs.length))
  refine ⟨xs[j - at_].byte, hget.trans (congrArg some ?_)⟩
  rw [← hasked]

theorem Asked.setLen {n : ℕ} (h : Asked file lo hi) (hn : hi ≤ n) : Asked (setLen file n) lo hi := by
  intro j hlo hhi
  obtain ⟨x, hx⟩ := h j hlo hhi
  obtain ⟨hlt, -⟩ := List.getElem?_eq_some_iff.mp hx
  refine ⟨x, ?_⟩
  rw [Hub.setLen, List.getElem?_append_left (by rw [List.length_take]; omega), List.getElem?_take,
    if_pos (by omega), hx]

end Asked

/-- The cells of a 206 answer were asked for, within its range. -/
theorem asked_cells {r : Attempt} {at_ : ℕ} {bytes : List UInt8} (h : at_ + bytes.length ≤ c.finish (r.b - 1)) :
    ∀ x ∈ cells c r 206 at_ bytes, x.asked = true := by
  intro x hx
  obtain ⟨j, hj, rfl⟩ := List.mem_mapIdx.mp hx
  exact decide_eq_true ⟨rfl, by omega⟩

/-- A mark marks its chunk alone. -/
theorem flags_put {state : List UInt8} {chunk i : ℕ} (h : flags (put state chunk [1]) i = true) :
    i = chunk ∨ flags state i = true := by
  rw [flags, decide_eq_true_eq] at h
  obtain hlt | heq | hgt := Nat.lt_trichotomy i chunk
  · by_cases hfile : i < state.length
    · rw [getElem?_put_of_lt hfile hlt] at h
      exact .inr (decide_eq_true h)
    · rw [getElem?_put_gap (by simp) (by omega) hlt] at h
      cases h
  · exact .inl heq
  · rw [getElem?_put_of_ge (by simpa using hgt)] at h
    exact .inr (decide_eq_true h)

/-! ## The invariant -/

/-- What a worker has asked for is on the list, and what came of a 206 answer is in the file. -/
def Phase.Streams (file : List Cell) (fetched : List ℕ) (c : Config) : Phase → Prop
  | .asking r => ∀ i, r.a ≤ i → i < r.b → i ∈ fetched
  | .asked r => ∀ i, r.a ≤ i → i < r.b → i ∈ fetched
  | .body r status at_ chunk => (∀ i, r.a ≤ i → i < r.b → i ∈ fetched) ∧
      (status = 206 → Asked file (c.span r.a).1 at_) ∧ (status ≠ 206 → chunk = r.a ∧ at_ < c.finish r.a)
  | _ => True

structure Marking (c : Config) (s : System) (p : Proc) : Prop where
  done : p.main = .joining → ∀ i < c.chunks, s.marked i = true → p.done i = true
  streams : p.main = .joining → ∀ k, (p.workers k).phase.Streams s.file p.fetched c
  had : ∀ i, p.had i = true → p.done i = true
  fetched : ∀ i ∈ p.fetched, p.had i = false
  covered : ∀ i, p.done i = true → p.had i = true ∨ i ∈ p.fetched
  complete : p.main = .matching ∨ p.main = .synced ∨ p.main = .renamed ∨ p.main = .returned true →
    ∀ i < c.chunks, p.done i = true

structure Marks (c : Config) (s : System) : Prop where
  right : c.Right s
  /-- Once the part file has its name, there is nothing to resume. -/
  gone : s.part = none → (∀ i, s.marked i = false) ∨ ∃ target, s.target = some target ∧ target.length = c.size
  faithful : ∀ p, s.proc = some p → Faithful c s p
  marking : ∀ p, s.proc = some p → Marking c s p

theorem Faithful.joining (hs : Faithful c s p) (hk : k < c.workers) (hne : (p.workers k).phase ≠ .ended) :
    p.main = .joining := by
  by_contra hmain
  exact hne (hs.ended hmain k hk)

theorem Phase.Streams.mono {file : List Cell} {fetched fetched' : List ℕ} {phase : Phase}
    (h : phase.Streams file fetched c) (hsub : ∀ i ∈ fetched, i ∈ fetched') : phase.Streams file fetched' c := by
  cases phase with
  | asking r => exact fun i hi hb => hsub i (h i hi hb)
  | asked r => exact fun i hi hb => hsub i (h i hi hb)
  | body r status at_ chunk => exact ⟨fun i hi hb => hsub i (h.1 i hi hb), h.2⟩
  | _ => trivial

/-- A worker's step, seen from the files and the lists. -/
theorem Marking.set (hs : Marking c s p) (hjoining : p.main = .joining) {w : Worker}
    (hworkers : q.workers = Function.update p.workers k w) (hmain : q.main = p.main) (hhad : q.had = p.had)
    (hmono : ∀ i, p.done i = true → q.done i = true)
    (hdone : ∀ i, q.done i = true → p.done i = true ∨ i ∈ q.fetched)
    (hfetched : ∀ i ∈ q.fetched, i ∈ p.fetched ∨ p.done i = false) (hsub : ∀ i ∈ p.fetched, i ∈ q.fetched)
    (hmarked : ∀ i < c.chunks, s'.marked i = true → q.done i = true)
    (hothers : ∀ j ≠ k, (p.workers j).phase.Streams s'.file p.fetched c)
    (hstreams : w.phase.Streams s'.file q.fetched c) : Marking c s' q where
  done _ := hmarked
  streams _ j := by
    rw [hworkers]
    by_cases hj : j = k
    · rw [hj, Function.update_self]
      exact hstreams
    · rw [Function.update_of_ne hj]
      exact (hothers j hj).mono hsub
  had i hi := hmono i (hs.had i (hhad ▸ hi))
  fetched i hi := by
    rw [hhad]
    obtain hold | hnew := hfetched i hi
    · exact hs.fetched i hold
    · by_contra hhad'
      rw [hs.had i (by simpa using hhad')] at hnew
      cases hnew
  covered i hi := by
    rw [hhad]
    obtain hold | hnew := hdone i hi
    · exact (hs.covered i hold).imp_right (hsub i)
    · exact .inr hnew
  complete h := by
    rw [hmain, hjoining] at h
    simp at h

/-- A worker goes on without writing to a file. -/
theorem Marks.goOn (hs : Marks c s) (hproc : s.proc = some p) (hk : k < c.workers)
    (hne : (p.workers k).phase ≠ .ended) {w : Worker} {log : List Request}
    (hfaithful : Faithful c { part := s.part, state := s.state, target := s.target, proc := some q, log } q)
    (hworkers : q.workers = Function.update p.workers k w) (hmain : q.main = p.main) (hhad : q.had = p.had)
    (hdone : q.done = p.done) (hfetched : ∀ i ∈ q.fetched, i ∈ p.fetched ∨ p.done i = false)
    (hsub : ∀ i ∈ p.fetched, i ∈ q.fetched) (hstreams : w.phase.Streams s.file q.fetched c) :
    Marks c { part := s.part, state := s.state, target := s.target, proc := some q, log } := by
  have hjoining := (hs.faithful p hproc).joining hk hne
  have hmarking := hs.marking p hproc
  refine ⟨hs.right, hs.gone, fun q' hq' => ?_, fun q' hq' => ?_⟩
  · obtain rfl := Option.some.inj hq'
    exact hfaithful
  · obtain rfl := Option.some.inj hq'
    exact hmarking.set hjoining hworkers hmain hhad (fun i hi => hdone ▸ hi) (fun i hi => .inl (hdone ▸ hi)) hfetched hsub
      (fun i hi hmark => hdone ▸ hmarking.done hjoining i hi hmark) (fun j _ => hmarking.streams hjoining j) hstreams

theorem Honest.fits {inp : Input} (h : Honest c s inp) : Fits c s inp := by
  unfold Fits
  split
  · exact fun p hp => (h p hp).1
  · trivial

theorem start_lt_finish {i : ℕ} (h : i < c.chunks) : (c.span i).1 < c.finish i := by
  have hCHUNK : 0 < CHUNK := by decide
  have hlt := start_lt i h
  simp only [Config.finish, Config.span]
  omega

/-- A chunk ends before the next ones start. -/
theorem finish_le_start {i j : ℕ} (h : i < j) : c.finish i ≤ (c.span j).1 := by
  have hmul : (i + 1) * CHUNK ≤ j * CHUNK := Nat.mul_le_mul_right CHUNK h
  rw [Nat.succ_mul] at hmul
  simp only [Config.finish, Config.span]
  omega

/-! ## Writes -/

section Write

variable {part xs : List Cell} {r : Attempt} {status at_ chunk : ℕ}

/-- A write leaves alone what lies before the chunk it has come to and behind its range. -/
theorem asked_put_of_beside {done : ℕ → Bool} {lo hi : ℕ} (h : Asked part lo hi)
    (hphase : c.PhaseOk done (.body r status at_ chunk)) (hin : c.Inside (.body r status at_ chunk))
    (hend : at_ + xs.length ≤ c.finish (r.b - 1))
    (hd : hi ≤ (c.span chunk).1 ∨ c.finish (r.b - 1) ≤ lo) : Asked (put part at_ xs) lo hi := by
  obtain ⟨-, -, hb, hat, -⟩ := hphase
  obtain hlt | heq := hb.lt_or_eq
  · obtain hbefore | hbehind := hd
    · exact h.put (.inl (hbefore.trans (hat hlt)))
    · exact h.put (.inr (hend.trans hbehind))
  · have hnil : xs = [] := by
      have hover := hin.2 heq
      exact List.eq_nil_of_length_eq_zero (by omega)
    rw [hnil, put_nil]
    exact h

/-- Chunks that are done keep their bytes. -/
theorem right_put {done : ℕ → Bool} {i : ℕ} (h : Asked part (c.span i).1 (c.finish i)) (hdone : done i = true)
    (hphase : c.PhaseOk done (.body r status at_ chunk)) (hin : c.Inside (.body r status at_ chunk))
    (hend : at_ + xs.length ≤ c.finish (r.b - 1)) : Asked (put part at_ xs) (c.span i).1 (c.finish i) := by
  refine asked_put_of_beside h hphase hin hend ?_
  have hr := hphase.1.some
  by_cases hlt : i < chunk
  · exact .inl (finish_le_start hlt)
  · refine .inr (finish_le_start ?_)
    by_contra hb
    have hmissing := hphase.2.2.2.2 i (by omega) (by omega)
    rw [hdone] at hmissing
    cases hmissing

/-- A worker leaves alone what another one writes. -/
theorem streams_put {fetched : List ℕ} {j : ℕ} (hs : Faithful c s p) (hjk : j ≠ k)
    (h : (p.workers k).phase = .body r status at_ chunk) (hend : at_ + xs.length ≤ c.finish (r.b - 1))
    (hstreams : (p.workers j).phase.Streams part fetched c) : (p.workers j).phase.Streams (put part at_ xs) fetched c := by
  have hphase := hs.sound.phase k
  have hin := hs.inside k
  have hphasej := hs.sound.phase j
  have hinj := hs.inside j
  have hapart := hs.sound.apart j k
  rw [h] at hphase hin hapart
  cases hj : (p.workers j).phase with
  | body r' status' at' chunk' =>
    rw [hj] at hstreams hphasej hinj hapart
    refine ⟨hstreams.1, fun hstatus => asked_put_of_beside (hstreams.2.1 hstatus) hphase hin hend ?_, hstreams.2.2⟩
    have hr := hphase.1
    have hr' := hphasej.1
    have hdisjoint : r'.b ≤ r.a ∨ r.b ≤ r'.a := by
      by_contra hover
      push Not at hover
      have hfrm := hr.frm
      have hfrm' := hr'.frm
      have hstop := hr.stop
      have hstop' := hr'.stop
      have hsome := hr.some
      have hsome' := hr'.some
      exact hjk (hapart (max r.a r'.a) ⟨by omega, by omega⟩ ⟨by omega, by omega⟩)
    obtain hbefore | hbehind := hdisjoint
    · left
      have hle : r'.b - 1 < chunk := by
        have ha := hphase.2.1
        have hsome' := hr'.some
        omega
      exact hinj.1.trans (finish_le_start hle)
    · right
      have hsome := hr.some
      exact finish_le_start (by omega)
  | asking r' =>
    rw [hj] at hstreams
    exact hstreams
  | asked r' =>
    rw [hj] at hstreams
    exact hstreams
  | _ => trivial

end Write

/-- A worker writes to the part file. -/
theorem Marks.write (hs : Marks c s) (hproc : s.proc = some p) (hk : k < c.workers) {part xs : List Cell}
    {r : Attempt} {status at_ chunk : ℕ} (hpart : s.part = some part)
    (h : (p.workers k).phase = .body r status at_ chunk) (hend : at_ + xs.length ≤ c.finish (r.b - 1)) {w : Worker}
    (hfaithful : Faithful c { s with part := some (put part at_ xs), proc := some (p.setWorker k w) } (p.setWorker k w))
    (hstreams : w.phase.Streams (put part at_ xs) p.fetched c) :
    Marks c { s with part := some (put part at_ xs), proc := some (p.setWorker k w) } := by
  have hp := hs.faithful p hproc
  have hjoining := hp.joining hk (by rw [h]; nofun)
  have hmarking := hs.marking p hproc
  have hphase := hp.sound.phase k
  have hin := hp.inside k
  rw [h] at hphase hin
  have hfile : s.file = part := by
    rw [System.file, hpart]
    rfl
  refine ⟨fun i hi hmark => ?_, nofun, fun q' hq' => ?_, fun q' hq' => ?_⟩
  · have hright := hs.right i hi hmark
    rw [hfile] at hright
    exact right_put hright (hmarking.done hjoining i hi hmark) hphase hin hend
  · obtain rfl := Option.some.inj hq'
    exact hfaithful
  · obtain rfl := Option.some.inj hq'
    refine hmarking.set hjoining rfl rfl rfl (fun _ => id) (fun _ => .inl) (fun _ => .inl) (fun _ => id)
      (fun i hi hmark => hmarking.done hjoining i hi hmark) (fun j hj => ?_) hstreams
    have hother := hmarking.streams hjoining j
    rw [hfile] at hother
    exact streams_put hp hj h hend hother

/-! ## Steps -/

theorem update_done {done : ℕ → Bool} {chunk i : ℕ} (h : done i = true) : Function.update done chunk true i = true := by
  by_cases hne : i = chunk
  · rw [hne, Function.update_self]
  · rw [Function.update_of_ne hne, h]

theorem Marks.works (hs : Marks c s) (hproc : s.proc = some p) (hk : k < c.workers) {act : Act}
    (hhonest : Honest c s (.worker k act)) (h : Works c s p k act s') : Marks c s' := by
  have hne := h.ne_ended
  have hfaithful : ∀ q, s'.proc = some q → Faithful c s' q :=
    fun q hq => (hs.faithful p hproc).works hproc hk hhonest.fits h hq
  have hjoining := (hs.faithful p hproc).joining hk hne
  have hphase := (hs.faithful p hproc).sound.phase k
  have hmarking := hs.marking p hproc
  have hstreams := hmarking.streams hjoining k
  cases h with
  | claim h => exact hs.goOn hproc hk hne (hfaithful _ rfl) rfl rfl rfl rfl (fun _ => .inl) (fun _ => id) trivial
  | quit first h hover =>
    exact hs.goOn hproc hk hne (hfaithful _ rfl) rfl rfl rfl rfl (fun _ => .inl) (fun _ => id) trivial
  | scan first h hfirst =>
    exact hs.goOn hproc hk hne (hfaithful _ rfl) rfl rfl rfl rfl (fun _ => .inl) (fun _ => id) trivial
  | exhausted at_ stop h hnone =>
    exact hs.goOn hproc hk hne (hfaithful _ rfl) rfl rfl rfl rfl (fun _ => .inl) (fun _ => id) trivial
  | take at_ stop frm past h hsome =>
    exact hs.goOn hproc hk hne (hfaithful _ rfl) rfl rfl rfl rfl (fun _ => .inl) (fun _ => id) trivial
  | through t h hnone =>
    exact hs.goOn hproc hk hne (hfaithful _ rfl) rfl rfl rfl rfl (fun _ => .inl) (fun _ => id) trivial
  | ask t a b h hsome =>
    obtain ⟨-, -, -, -, hmissing, -⟩ := missing_some hsome
    refine hs.goOn hproc hk hne (hfaithful _ rfl) rfl rfl rfl rfl (fun i hi => ?_) (fun i hi => List.mem_append_left _ hi)
      fun i hi hb => ?_
    · refine (List.mem_append.mp hi).imp_right fun hnew => ?_
      rw [List.mem_range'_1] at hnew
      exact hmissing i hnew.1 (by omega)
    · have hnew : i ∈ List.range' a (b - a) := List.mem_range'_1.mpr ⟨hi, by change a ≤ i at hi; change i < b at hb; omega⟩
      exact List.mem_append_right _ hnew
  | giveUp t h hlast =>
    exact hs.goOn hproc hk hne (hfaithful _ rfl) rfl rfl rfl rfl (fun _ => .inl) (fun _ => id) trivial
  | retry t h =>
    exact hs.goOn hproc hk hne (hfaithful _ rfl) rfl rfl rfl rfl (fun _ => .inl) (fun _ => id) trivial
  | sent r h =>
    rw [h] at hstreams
    exact hs.goOn hproc hk hne (hfaithful _ rfl) rfl rfl rfl rfl (fun _ => .inl) (fun _ => id) hstreams
  | redirected r status location closing fetch h hfetch =>
    rw [h] at hstreams
    exact hs.goOn hproc hk hne (hfaithful _ rfl) rfl rfl rfl rfl (fun _ => .inl) (fun _ => id) hstreams
  | answered r status closing h =>
    rw [h] at hstreams
    refine hs.goOn hproc hk hne (hfaithful _ rfl) rfl rfl rfl rfl (fun _ => .inl) (fun _ => id)
      ⟨hstreams, fun _ => asked_empty (Nat.le_refl _), fun _ => ⟨rfl, start_lt_finish ?_⟩⟩
    rw [h] at hphase
    exact hphase.1.some.trans_le (hphase.1.stop.trans hphase.1.task.chunks)
  | failed act r conn h =>
    exact hs.goOn hproc hk hne (hfaithful _ rfl) rfl rfl rfl rfl (fun _ => .inl) (fun _ => id) trivial
  | wrote r status at_ chunk bytes part h hpart hpending =>
    have hadmits := hhonest p hproc
    rw [h] at hadmits hstreams
    have hend : at_ + (cells c r status at_ bytes).length ≤ c.finish (r.b - 1) := by
      rw [length_cells, ← written_none bytes]
      exact hadmits.1
    refine hs.write hproc hk hpart h hend (hfaithful _ rfl) ⟨hstreams.1, fun hstatus => ?_, fun hstatus => ?_⟩
    · subst hstatus
      have hbefore : Asked part (c.span r.a).1 at_ := by
        have hfile := hstreams.2.1 rfl
        rwa [System.file, hpart] at hfile
      refine (hbefore.put (.inl (Nat.le_refl _))).append ?_
      rw [← @length_cells c r 206 at_]
      exact asked_put (asked_cells (by rw [← @length_cells c r 206 at_]; exact hend))
    · obtain h206 | htorn | hshort := hadmits.2
      · exact absurd h206 hstatus
      · cases htorn
      · exact ⟨(hstreams.2.2 hstatus).1, hshort⟩
  | tore r status at_ chunk n bytes part h hpart hpending =>
    have hadmits := hhonest p hproc
    rw [h] at hadmits
    refine hs.write hproc hk hpart h ?_ (hfaithful _ rfl) trivial
    rw [length_cells]
    exact hadmits.1
  | marked r status at_ chunk state h hstate hchunk hwhole =>
    rw [h] at hphase hstreams
    have hmark (i : ℕ) (hi : flags (put state chunk [1]) i = true) : i = chunk ∨ s.marked i = true := by
      rw [System.marked, hstate]
      exact flags_put hi
    have hstatus : status = 206 := by
      by_contra hother
      obtain ⟨rfl, hshort⟩ := hstreams.2.2 hother
      exact absurd hwhole (Nat.not_le_of_lt hshort)
    obtain ⟨part, hpart⟩ := (hs.faithful p hproc).part (.inl hjoining)
    refine ⟨fun i hi hmarked => ?_, fun hnone => absurd (hpart.symm.trans hnone) nofun, fun q' hq' => ?_,
      fun q' hq' => ?_⟩
    · obtain rfl | hold := hmark i hmarked
      · exact (hstreams.2.1 hstatus).mono (Nat.mul_le_mul_right CHUNK hphase.2.1) hwhole
      · exact hs.right i hi hold
    · exact hfaithful q' hq'
    · obtain rfl := Option.some.inj hq'
      refine hmarking.set hjoining rfl rfl rfl (fun i hi => ?_) (fun i hi => ?_) (fun _ => .inl) (fun _ => id)
        (fun i hi hmarked => ?_) (fun j _ => hmarking.streams hjoining j) ⟨hstreams.1, hstreams.2.1, fun hother => ?_⟩
      · exact update_done hi
      · by_cases hne : i = chunk
        · exact .inr (hne ▸ hstreams.1 chunk hphase.2.1 hchunk)
        · exact .inl ((Function.update_of_ne hne _ _).symm.trans hi)
      · obtain rfl | hold := hmark i hmarked
        · exact Function.update_self i true p.done
        · exact update_done (hmarking.done hjoining i hi hold)
      · exact absurd hstatus hother
  | skipped r status at_ chunk h hchunk hwhole =>
    rw [h] at hstreams
    refine hs.goOn hproc hk hne (hfaithful _ rfl) rfl rfl rfl rfl (fun _ => .inl) (fun _ => id)
      ⟨hstreams.1, hstreams.2.1, fun hstatus => ?_⟩
    obtain ⟨rfl, hshort⟩ := hstreams.2.2 hstatus
    exact absurd hwhole (Nat.not_le_of_lt hshort)
  | finished r status at_ chunk url phase h hpending hurl hend =>
    refine hs.goOn hproc hk hne (hfaithful _ rfl) rfl rfl rfl rfl (fun _ => .inl) (fun _ => id) ?_
    obtain rfl | ⟨rfl, -⟩ := hend
    all_goals trivial

/-- Opening the files loses no marked chunk. -/
theorem Marks.opening (hs : Marks c s) (htarget : ∀ t, s.target = some t → t.length ≠ c.size) {part : List Cell}
    (hpart : part = s.part.getD [] ∨ part = setLen (s.part.getD []) c.size) {i : ℕ} (hi : i < c.chunks)
    (hmarked : s.marked i = true) : Asked part (c.span i).1 (c.finish i) := by
  have hfile : s.file = s.part.getD [] := by
    cases hsome : s.part with
    | some part =>
      rw [System.file, hsome]
      rfl
    | none =>
      obtain hnone | ⟨target, ht, hlength⟩ := hs.gone hsome
      · rw [hnone i] at hmarked
        cases hmarked
      · exact absurd hlength (htarget target ht)
  have hright := hs.right i hi hmarked
  rw [hfile] at hright
  obtain rfl | rfl := hpart
  · exact hright
  · exact hright.setLen (finish_le i hi)

theorem Marking.keep (hs : Marking c s p) (hworkers : q.workers = p.workers) (hdone : q.done = p.done)
    (hhad : q.had = p.had) (hfetched : q.fetched = p.fetched)
    (hjoining : q.main = .joining → p.main = .joining ∧ s'.file = s.file ∧ s'.state = s.state)
    (hcomplete : q.main = .matching ∨ q.main = .synced ∨ q.main = .renamed ∨ q.main = .returned true →
      ∀ i < c.chunks, p.done i = true) : Marking c s' q where
  done h i hi hmarked := by
    obtain ⟨hmain, -, hstate⟩ := hjoining h
    rw [System.marked, hstate] at hmarked
    rw [hdone]
    exact hs.done hmain i hi hmarked
  streams h k := by
    obtain ⟨hmain, hfile, -⟩ := hjoining h
    rw [hworkers, hfile, hfetched]
    exact hs.streams hmain k
  had := hhad ▸ hdone ▸ hs.had
  fetched := hhad ▸ hfetched ▸ hs.fetched
  covered := hhad ▸ hdone ▸ hfetched ▸ hs.covered
  complete h := hdone ▸ hcomplete h

theorem marking_start (s : System) (hdone : ∀ i < c.chunks, s'.marked i = true → s.marked i = true) :
    Marking c s' (Proc.start (flags (s.state.getD []))) where
  done _ := hdone
  streams _ _ := trivial
  had _ h := h
  fetched := nofun
  covered _ := .inl
  complete h := by
    simp [Proc.start] at h

theorem Marks.step (hs : Marks c s) {inp : Input} (hhonest : Honest c s inp) (hstep : step c s inp = some s') :
    Marks c s' := by
  have hfaithful : ∀ q, s'.proc = some q → Faithful c s' q :=
    fun q hq => Faithful.step hs.faithful hhonest.fits hstep hq
  cases moves_of_step hstep with
  | opened o part state hproc hpart hstate htarget =>
    refine ⟨fun i hi hmarked => ?_, nofun, hfaithful, fun q hq => absurd (hproc.symm.trans hq) nofun⟩
    refine hs.opening htarget hpart hi ?_
    obtain rfl | rfl := hstate
    all_goals exact hmarked
  | started hproc htarget =>
    refine ⟨fun i hi hmarked => ?_, nofun, hfaithful, fun q hq => ?_⟩
    · exact hs.opening htarget (.inr rfl) hi hmarked
    · obtain rfl := Option.some.inj hq
      exact marking_start s fun _ _ h => h
  | worked p k act s' hproc hk h => exact hs.works hproc hk hhonest h
  | killed p hproc =>
    refine ⟨hs.right, hs.gone, fun q hq => ?_, fun q hq => ?_⟩
    all_goals cases hq
  | hashedAll p i bytes read hproc hhash hi =>
    refine ⟨hs.right, hs.gone, hfaithful, fun q hq => ?_⟩
    obtain rfl := Option.some.inj hq
    exact (hs.marking p hproc).keep rfl rfl rfl rfl (fun h => ⟨h, rfl, rfl⟩) (hs.marking p hproc).complete
  | hashed p i bytes part read hproc hpart hhash hi hdone hfile =>
    refine ⟨hs.right, hs.gone, hfaithful, fun q hq => ?_⟩
    obtain rfl := Option.some.inj hq
    exact (hs.marking p hproc).keep rfl rfl rfl rfl (fun h => ⟨h, rfl, rfl⟩) (hs.marking p hproc).complete
  | unhashed p read hash hproc hhash =>
    refine ⟨hs.right, hs.gone, hfaithful, fun q hq => ?_⟩
    obtain rfl := Option.some.inj hq
    exact (hs.marking p hproc).keep rfl rfl rfl rfl (fun h => ⟨h, rfl, rfl⟩) (hs.marking p hproc).complete
  | flushed p synced flush hproc =>
    refine ⟨hs.right, hs.gone, hfaithful, fun q hq => ?_⟩
    obtain rfl := Option.some.inj hq
    exact (hs.marking p hproc).keep rfl rfl rfl rfl (fun h => ⟨h, rfl, rfl⟩) (hs.marking p hproc).complete
  | joined p hproc hmain hhash hended =>
    refine ⟨hs.right, hs.gone, hfaithful, fun q hq => ?_⟩
    obtain rfl := Option.some.inj hq
    have hp := hs.faithful p hproc
    refine (hs.marking p hproc).keep rfl rfl rfl rfl (fun h => ?_) fun h => ?_
    · obtain hjudge | hjudge | hjudge := judge_cases c p
      all_goals cases hjudge.symm.trans h
    · have hmatching : judge c p = .matching := by
        obtain hjudge | hjudge | hjudge := judge_cases c p
        · rw [hjudge] at h
          simp at h
        · exact hjudge
        · rw [hjudge] at h
          simp at h
      obtain ⟨bytes, hwhole, -⟩ := judge_matching hp hhash hmatching
      obtain ⟨part, hpart⟩ := hp.part (.inl hmain)
      obtain ⟨-, hhashed⟩ := hp.hashed part hpart
      rw [hwhole] at hhashed
      exact hhashed.1
  | mismatched p done state hproc hmain hstate =>
    have hmarked (i : ℕ) (h : flags (state.getD []) i = true) : s.marked i = true := by
      obtain rfl | rfl := hstate
      · exact absurd h (by simp [flags])
      · exact h
    refine ⟨fun i hi h => hs.right i hi (hmarked i h), fun hnone => ?_, hfaithful, fun q hq => ?_⟩
    · refine (hs.gone hnone).imp_left fun h i => ?_
      by_contra hmark
      rw [Bool.not_eq_false] at hmark
      have hold := hmarked i hmark
      rw [h i] at hold
      cases hold
    · obtain rfl := Option.some.inj hq
      exact (hs.marking p hproc).keep rfl rfl rfl rfl nofun (by simp)
  | synced p hproc hmain =>
    refine ⟨hs.right, hs.gone, hfaithful, fun q hq => ?_⟩
    obtain rfl := Option.some.inj hq
    exact (hs.marking p hproc).keep rfl rfl rfl rfl nofun fun _ => (hs.marking p hproc).complete (.inl hmain)
  | renamed p hproc hmain =>
    obtain ⟨part, hpart⟩ := (hs.faithful p hproc).part (.inr (.inr hmain))
    have hfile : s.file = part := by
      rw [System.file, hpart]
      rfl
    have hlength := ((hs.faithful p hproc).hashed part hpart).1
    refine ⟨fun i hi h => ?_, fun _ => .inr ⟨part, hpart, hlength⟩, hfaithful, fun q hq => ?_⟩
    · have hright := hs.right i hi h
      rw [hfile] at hright
      rw [System.file, Option.none_or, hpart]
      exact hright
    · obtain rfl := Option.some.inj hq
      exact (hs.marking p hproc).keep rfl rfl rfl rfl nofun fun _ => (hs.marking p hproc).complete (.inr (.inl hmain))
  | unsettled p hproc hmain =>
    refine ⟨hs.right, hs.gone, hfaithful, fun q hq => ?_⟩
    obtain rfl := Option.some.inj hq
    exact (hs.marking p hproc).keep rfl rfl rfl rfl nofun (by simp)
  | removed p hproc hmain =>
    refine ⟨fun i hi h => absurd h (by simp [System.marked, flags]), fun _ => .inl fun i => by simp [System.marked, flags],
      hfaithful, fun q hq => ?_⟩
    obtain rfl := Option.some.inj hq
    exact (hs.marking p hproc).keep rfl rfl rfl rfl nofun fun _ => (hs.marking p hproc).complete (.inr (.inr (.inl hmain)))

/-! ## Every run -/

theorem marks_start {target : Option (List Cell)} {log : List Request} :
    Marks c { part := none, state := none, target, proc := none, log } := by
  refine ⟨fun i hi h => absurd h (by simp [System.marked, flags]), fun _ => .inl fun i => by simp [System.marked, flags],
    fun q hq => ?_, fun q hq => ?_⟩
  all_goals cases hq

theorem Marks.resumes (hs : Marks c s) (hp : s.proc = some p) : c.Resumes s p := by
  have hmarking := hs.marking p hp
  have hfaithful := hs.faithful p hp
  refine ⟨hmarking.fetched, hfaithful.sound.apart, fun hreturned => ⟨fun i hi hhad => ?_, ?_⟩⟩
  · obtain h | h := hmarking.covered i (hmarking.complete (.inr (.inr (.inr hreturned))) i hi)
    · rw [hhad] at h
      cases h
    · exact h
  · exact hfaithful.target (.inr hreturned)

/-- If no body goes on behind its range and only 206 answers fill a chunk, a marked chunk is a right
chunk however the downloads of a file end, and each of them asks for what was not marked. -/
theorem marked_right {target : Option (List Cell)} {log : List Request}
    (h : Reachable (Hub.step c) (Honest c) { part := none, state := none, target, proc := none, log } s) :
    c.Right s ∧ ∀ p, s.proc = some p → c.Resumes s p := by
  have hmarks : Marks c s := h.invariant marks_start fun _ _ _ hhonest hstep hs => hs.step hhonest hstep
  exact ⟨hmarks.right, fun _ hp => hmarks.resumes hp⟩

instance (bytes : List UInt8) (torn : Option ℕ) : DecidablePred (c.Refuses bytes torn)
  | .body r status at_ _ => inferInstanceAs (Decidable (status = 206 ∨ torn.isSome = true ∨ at_ + bytes.length < c.finish r.a))
  | .claiming | .claimed _ | .scanning _ _ | .trying _ | .asking _ | .asked _ | .failing _ | .ended => .isTrue trivial

instance (s : System) : DecidablePred (Honest c s)
  | .worker k (.piece bytes torn) => inferInstanceAs (Decidable
      (∀ p ∈ s.proc, c.Takes bytes torn (p.workers k).phase ∧ c.Refuses bytes torn (p.workers k).phase))
  | .worker _ .go | .worker _ (.send _) | .worker _ (.redirect _ _ _) | .worker _ (.head _ _) | .worker _ (.mark _)
  | .worker _ .finish | .worker _ .error | .start _ | .hash _ | .flush _ | .join | .settle _ | .kill => .isTrue trivial

/-- The process is killed behind a mark, and the next one has nothing to ask for. -/
theorem resumed_run : ((replay (Hub.step gated) (fun s inp => decide (Honest gated s inp)) ⟨none, none, none, none, []⟩
    (asking ++ [.worker 0 (.head 206 false), .worker 0 (.piece [1, 2, 3] none), .worker 0 (.mark true), .kill
      , .start .started, .worker 0 .go, .worker 1 .go, .worker 1 .go, .worker 0 .go] ++ ending)).bind System.proc).map
        (fun p => (p.fetched, p.main)) = some ([], .returned true) := by
  decide +kernel

theorem resumed_right : ∃ s p, Reachable (Hub.step gated) (Honest gated) ⟨none, none, none, none, []⟩ s ∧
    s.proc = some p ∧ p.fetched = [] ∧ p.main = .returned true ∧ gated.Right s ∧ gated.Resumes s p := by
  obtain ⟨p, hproc, hpair⟩ := Option.map_eq_some_iff.mp resumed_run
  obtain ⟨s, hs, hp⟩ := Option.bind_eq_some_iff.mp hproc
  obtain ⟨hfetched, hmain⟩ := Prod.mk.inj hpair
  have hrun := (reachable_of_replay _ hs .refl).mono fun _ _ => of_decide_eq_true
  exact ⟨s, p, hrun, hp, hfetched, hmain, (marked_right hrun).1, (marked_right hrun).2 p hp⟩

theorem refused_run : (run (Hub.step gated) ⟨none, none, none, none, []⟩
    (asking ++ [.worker 0 (.head 404 false), .worker 0 (.piece [52, 48, 52] none), .worker 0 (.mark true)])).isSome := by
  decide

/-- The body of an error is long enough for the chunk, which is marked. -/
theorem refused_marked : ∃ s, Reachable (Hub.step gated) Libre ⟨none, none, none, none, []⟩ s ∧
    s.marked 0 = true ∧ s.file = [⟨52, false⟩, ⟨48, false⟩, ⟨52, false⟩] ∧ ¬gated.Right s := by
  have hfile : ((run (Hub.step gated) ⟨none, none, none, none, []⟩ (asking ++ [.worker 0 (.head 404 false)
      , .worker 0 (.piece [52, 48, 52] none), .worker 0 (.mark true)])).get refused_run).file =
      [⟨52, false⟩, ⟨48, false⟩, ⟨52, false⟩] := by decide
  refine ⟨_, reachable_run _ refused_run, rfl, hfile, fun h => ?_⟩
  obtain ⟨x, hx⟩ := h 0 (by decide) rfl 0 (by decide) (by decide)
  rw [hfile] at hx
  simp at hx

end Chatlink.Hub
