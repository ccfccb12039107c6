import Chatlink.Serve.Doorbells

/-!
# What the loop keeps

The queue holds the slots of the clients whose request is read and not answered, each once.
A request that is read and not answered is in the queue or being dealt with, so the log of
the requests read is the log of those answered, then the one in hand, then the queue.
-/
namespace Chatlink.Serve

namespace Phase

/-- The connection whose request is in hand. -/
def busy : Phase → Option ℕ
  | .reads _ k true _ => some k
  | .streams k _ | .hears k _ => some k
  | _ => none

/-- The request that is being answered. -/
def current : Phase → List (ℕ × UInt64)
  | .streams k id | .hears k id => [(k, id)]
  | _ => []

end Phase

namespace Served

variable {s : Served} {i j k : ℕ} {f : Conn → Conn}

/-- Connection `k` has slot `i`. -/
def At (s : Served) (i k : ℕ) : Prop := s.slots[i]? = some (some k)

/-- The connection and the number of the request that waits in slot `i`. -/
def entry (s : Served) (i : ℕ) : ℕ × UInt64 :=
  let k := (s.slots[i]?.join).getD 0
  (k, (read (s.conns k).area).1)

/-- A request of connection `k` is read and not answered. -/
def pending (s : Served) (k : ℕ) : Bool := (s.conns k).queued || s.phase.busy = some k

def PhaseOk (s : Served) : Phase → Prop
  | .poll | .stopped => s.queue = []
  | .rings todo => todo.Nodup ∧ ∀ j ∈ s.queue, j ∉ todo
  | .reads i k _ todo => s.At i k ∧ (i :: todo).Nodup ∧ ∀ j ∈ s.queue, j ∉ i :: todo
  | .streams k id | .hears k id => (∃ i, s.At i k) ∧ id = (read (s.conns k).area).1
  | .drains => True

structure Fair (s : Served) : Prop where
  conn : ∀ k, (s.conns k).Ok
  joined : ∀ i k, s.At i k → k < s.joined
  fresh : ∀ k, s.joined ≤ k → s.conns k = {}
  injective : ∀ i j k, s.At i k → s.At j k → i = j
  present : ∀ k, k < s.joined → (s.conns k).open_ = true → ∃ i, s.At i k
  queue_at : ∀ i ∈ s.queue, ∃ k, s.At i k ∧ (s.conns k).queued = true
  queue_nodup : s.queue.Nodup
  in_queue : ∀ i k, s.At i k → (s.conns k).queued = true → i ∈ s.queue
  counts : ∀ i k, s.At i k → (s.conns k).heard = (s.conns k).lasts.length + (s.pending k).toNat
  free : ∀ k, s.phase.busy = some k → (s.conns k).queued = false
  phase : s.PhaseOk s.phase
  log : s.accepted = s.answered ++ s.phase.current ++ s.queue.map s.entry
  lasts : ∀ k, (s.conns k).lasts.map Answer.id =
    (s.answered.filter fun e => e.1 = k).map Prod.snd

theorem fair_initial : Fair initial where
  conn := fun _ => Conn.ok_new
  joined := nofun
  fresh := fun _ _ => rfl
  injective := nofun
  present := fun _ h => absurd h (Nat.not_lt_zero _)
  queue_at := nofun
  queue_nodup := List.nodup_nil
  in_queue := nofun
  counts := nofun
  free := nofun
  phase := rfl
  log := rfl
  lasts := fun _ => rfl

@[simp] theorem conns_set_self (s : Served) (k : ℕ) (f : Conn → Conn) :
    (s.set k f).conns k = f (s.conns k) := if_pos rfl

theorem conns_set_ne (h : j ≠ k) : (s.set k f).conns j = s.conns j := if_neg h

theorem entry_of_at (h : s.At i k) : s.entry i = (k, (read (s.conns k).area).1) := by
  unfold At at h
  simp [entry, h]

theorem At.conn_eq (h : s.At i k) (h' : s.At i j) : k = j :=
  Option.some.inj (Option.some.inj (h.symm.trans h'))

/-! ### Steps that leave the queue alone -/

/-- A property of all connections after one of them changes. -/
theorem forall_set {P : ℕ → Conn → Prop} (hk : P k (f (s.conns k)))
    (hne : ∀ j, j ≠ k → P j (s.conns j)) (j : ℕ) : P j ((s.set k f).conns j) := by
  rcases eq_or_ne j k with rfl | hj
  · rw [conns_set_self]
    exact hk
  · rw [conns_set_ne hj]
    exact hne j hj

theorem pending_set (hqueued : (f (s.conns k)).queued = (s.conns k).queued) (j : ℕ) :
    (s.set k f).pending j = s.pending j := by
  rcases eq_or_ne j k with rfl | hj
  · simp only [pending, conns_set_self, hqueued]
    rfl
  · simp only [pending, conns_set_ne hj]
    rfl

/-- One connection changes, and neither what was read of it nor what was answered. -/
theorem Fair.change (h : Fair s) (hk : k < s.joined) (hok : (f (s.conns k)).Ok)
    (hheard : (f (s.conns k)).heard = (s.conns k).heard)
    (hlasts : (f (s.conns k)).lasts = (s.conns k).lasts)
    (hqueued : (f (s.conns k)).queued = (s.conns k).queued)
    (hopen : (f (s.conns k)).open_ = true → (s.conns k).open_ = true)
    (harea : s.pending k = true → (f (s.conns k)).area = (s.conns k).area) :
    Fair (s.set k f) := by
  have hsame : ∀ j, ((s.set k f).conns j).queued = (s.conns j).queued :=
    forall_set (P := fun j c => c.queued = (s.conns j).queued) hqueued fun _ _ => rfl
  have hnumber : ∀ j, s.pending j = true →
      (read ((s.set k f).conns j).area).1 = (read (s.conns j).area).1 := by
    intro j hj
    rcases eq_or_ne j k with rfl | hne
    · rw [conns_set_self, harea hj]
    · rw [conns_set_ne hne]
  refine
    { conn := forall_set hok fun j _ => h.conn j
      joined := h.joined
      fresh := ?_
      injective := h.injective
      present := ?_
      queue_at := ?_
      queue_nodup := h.queue_nodup
      in_queue := fun i j hat hq => h.in_queue i j hat ((hsame j).symm.trans hq)
      counts := ?_
      free := fun j hj => (hsame j).trans (h.free j hj)
      phase := ?_
      log := ?_
      lasts := ?_ }
  · intro j hj
    have hne : j ≠ k := by
      rintro rfl
      exact absurd hk (not_lt.mpr hj)
    rw [conns_set_ne hne]
    exact h.fresh j hj
  · intro j hj hj'
    refine h.present j hj ?_
    rcases eq_or_ne j k with rfl | hne
    · rw [conns_set_self] at hj'
      exact hopen hj'
    · rwa [conns_set_ne hne] at hj'
  · intro i hi
    obtain ⟨j, hat, hq⟩ := h.queue_at i hi
    exact ⟨j, hat, (hsame j).trans hq⟩
  · intro i j hat
    have hcounts := h.counts i j hat
    rw [pending_set hqueued]
    refine forall_set (P := fun j c => (s.conns j).heard = (s.conns j).lasts.length +
      (s.pending j).toNat → c.heard = c.lasts.length + (s.pending j).toNat) ?_ ?_ j hcounts
    · intro hc
      rw [hheard, hlasts, hc]
    · exact fun _ _ hc => hc
  · have hphase := h.phase
    change (s.set k f).PhaseOk s.phase
    have hbusy : ∀ j, s.phase.busy = some j → s.pending j = true := fun j hj => by
      simp [pending, hj]
    cases hp : s.phase with
    | streams j id =>
      rw [hp] at hphase
      exact ⟨hphase.1, hphase.2.trans (hnumber j (hbusy j (by rw [hp]; rfl))).symm⟩
    | hears j id =>
      rw [hp] at hphase
      exact ⟨hphase.1, hphase.2.trans (hnumber j (hbusy j (by rw [hp]; rfl))).symm⟩
    | _ =>
      rw [hp] at hphase
      exact hphase
  · have hentries : s.queue.map (s.set k f).entry = s.queue.map s.entry := by
      apply List.map_congr_left
      intro i hi
      obtain ⟨j, hat, hq⟩ := h.queue_at i hi
      have hpending : s.pending j = true := by simp [pending, hq]
      rw [entry_of_at hat, entry_of_at (s := s.set k f) hat, hnumber j hpending]
    exact h.log.trans (congrArg _ hentries.symm)
  · exact forall_set (P := fun j c => c.lasts.map Answer.id =
      (s.answered.filter fun e => e.1 = j).map Prod.snd) (by rw [hlasts]; exact h.lasts k)
      fun j _ => h.lasts j

/-- The daemon goes on without touching a connection. -/
theorem Fair.move (h : Fair s) {p : Phase} (hbusy : p.busy = s.phase.busy)
    (hcurrent : p.current = s.phase.current) (hp : s.PhaseOk p) : Fair { s with phase := p } where
  conn := h.conn
  joined := h.joined
  fresh := h.fresh
  injective := h.injective
  present := h.present
  queue_at := h.queue_at
  queue_nodup := h.queue_nodup
  in_queue := h.in_queue
  counts := fun i k hat => by
    have hcounts := h.counts i k hat
    simp only [pending] at hcounts ⊢
    rw [hbusy]
    exact hcounts
  free := fun k hk => h.free k (hbusy.symm.trans hk)
  phase := by cases p <;> exact hp
  log := by
    have hlog := h.log
    rw [← hcurrent] at hlog
    exact hlog
  lasts := h.lasts

/-! ### Steps on the client of a slot -/

theorem entry_set (harea : (f (s.conns k)).area = (s.conns k).area) (j : ℕ) :
    (s.set k f).entry j = s.entry j := by
  have hsame : ∀ l, ((s.set k f).conns l).area = (s.conns l).area :=
    forall_set (P := fun l c => c.area = (s.conns l).area) harea fun _ _ => rfl
  simp only [entry]
  rw [hsame]
  rfl

/-- The connection of slot `i` changes, and with it the queue, the phase and the logs. What is
asked for is asked of that connection only. -/
theorem Fair.update (h : Fair s) (hat : s.At i k) (p : Phase) (queue : List ℕ)
    (accepted answered : List (ℕ × UInt64)) (hok : (f (s.conns k)).Ok)
    (hopen : (f (s.conns k)).open_ = (s.conns k).open_)
    (harea : (f (s.conns k)).area = (s.conns k).area)
    (hnodup : queue.Nodup)
    (hmem : ∀ j, j ∈ queue ↔ j ∈ s.queue ∧ j ≠ i ∨ j = i ∧ (f (s.conns k)).queued = true)
    (hbusy : ∀ j, j ≠ k → (p.busy = some j ↔ s.phase.busy = some j))
    (hcounts : (f (s.conns k)).heard = (f (s.conns k)).lasts.length +
      ((f (s.conns k)).queued || p.busy = some k).toNat)
    (hfree : p.busy = some k → (f (s.conns k)).queued = false)
    (hphase : PhaseOk { s.set k f with queue } p)
    (hlog : accepted = answered ++ p.current ++ queue.map s.entry)
    (hself : (f (s.conns k)).lasts.map Answer.id =
      (answered.filter fun e => e.1 = k).map Prod.snd)
    (hrest : ∀ j, j ≠ k → (answered.filter fun e => e.1 = j) =
      s.answered.filter fun e => e.1 = j) :
    Fair { s.set k f with phase := p, queue, accepted, answered } := by
  refine
    { conn := forall_set hok fun j _ => h.conn j
      joined := h.joined
      fresh := ?_
      injective := h.injective
      present := ?_
      queue_at := ?_
      queue_nodup := hnodup
      in_queue := ?_
      counts := ?_
      free := ?_
      phase := ?_
      log := ?_
      lasts := ?_ }
  · intro j hj
    have hne : j ≠ k := by
      rintro rfl
      exact absurd (h.joined i j hat) (not_lt.mpr hj)
    exact (conns_set_ne hne).trans (h.fresh j hj)
  · intro j hj hj'
    apply h.present j hj
    rw [← hj']
    exact (forall_set (P := fun l c => c.open_ = (s.conns l).open_) hopen (fun _ _ => rfl) j).symm
  · intro j hj
    rcases (hmem j).mp hj with ⟨hj, hne⟩ | ⟨rfl, hq⟩
    · obtain ⟨l, hl, hq⟩ := h.queue_at j hj
      have hlk : l ≠ k := by
        rintro rfl
        exact hne (h.injective j i l hl hat)
      exact ⟨l, hl, (congrArg Conn.queued (conns_set_ne hlk)).trans hq⟩
    · exact ⟨k, hat, (congrArg Conn.queued (conns_set_self s k f)).trans hq⟩
  · intro j l hl hq
    rw [hmem]
    rcases eq_or_ne l k with rfl | hlk
    · exact .inr ⟨h.injective j i l hl hat, (congrArg Conn.queued (conns_set_self s l f)).symm.trans hq⟩
    · refine .inl ⟨h.in_queue j l hl ((congrArg Conn.queued (conns_set_ne hlk)).symm.trans hq), ?_⟩
      rintro rfl
      exact hlk (hl.conn_eq hat)
  · intro j l hl
    rcases eq_or_ne l k with rfl | hlk
    · simp only [pending, conns_set_self]
      exact hcounts
    · have hc := h.counts j l hl
      simp only [pending, conns_set_ne hlk] at hc ⊢
      rw [hc]
      simp only [hbusy l hlk]
  · intro l hl
    rcases eq_or_ne l k with rfl | hlk
    · exact (congrArg Conn.queued (conns_set_self s l f)).trans (hfree hl)
    · exact (congrArg Conn.queued (conns_set_ne hlk)).trans (h.free l ((hbusy l hlk).mp hl))
  · cases p <;> exact hphase
  · change accepted = answered ++ p.current ++ queue.map (s.set k f).entry
    rw [hlog, List.map_congr_left fun j _ => entry_set harea j]
  · intro l
    rcases eq_or_ne l k with rfl | hlk
    · change ((s.set l f).conns l).lasts.map Answer.id = _
      rw [conns_set_self]
      exact hself
    · change ((s.set k f).conns l).lasts.map Answer.id = (answered.filter _).map Prod.snd
      rw [conns_set_ne hlk, hrest l hlk]
      exact h.lasts l

theorem busy_reads (b : Bool) (todo : List ℕ) (j : ℕ) :
    (Phase.reads i k b todo).busy = some j ↔ b = true ∧ k = j := by
  cases b with
  | false => simp [Phase.busy]
  | true => simp [Phase.busy]

/-- While the doorbells of a slot are read, its client is not in the queue. -/
theorem Fair.not_queued (h : Fair s) {b : Bool} {todo : List ℕ} (hp : s.phase = .reads i k b todo) :
    s.At i k ∧ (s.conns k).queued = false := by
  have hphase := h.phase
  rw [hp] at hphase
  obtain ⟨hat, -, hfree⟩ := hphase
  refine ⟨hat, ?_⟩
  by_contra hq
  exact hfree i (h.in_queue i k hat (Bool.of_not_eq_false hq)) List.mem_cons_self

theorem Fair.heard_reads (h : Fair s) {b : Bool} {todo : List ℕ}
    (hp : s.phase = .reads i k b todo) : (s.conns k).heard = (s.conns k).lasts.length + b.toNat := by
  obtain ⟨hat, hq⟩ := h.not_queued hp
  rw [h.counts i k hat, pending, hq, hp]
  simp [busy_reads]

theorem Fair.chunk_reads (h : Fair s) {b : Bool} {todo : List ℕ} (hp : s.phase = .reads i k b todo)
    (n : ℕ) :
    Fair { s.set k fun c => c.hearAll n with
      phase := .reads i k (b || .request ∈ (s.conns k).unread.take n) todo } := by
  obtain ⟨hat, hq⟩ := h.not_queued hp
  obtain ⟨hok, -, hheard⟩ := (h.conn k).hearAll n
  obtain ⟨-, hasked, harea, -, hqueued, hopen⟩ :=
    Conn.hearAll_same ((s.conns k).unread.take n) (s.conns k)
  have hlasts := Conn.hearAll_lasts (s.conns k) n
  have hphase := h.phase
  rw [hp] at hphase
  -- no more than one request is unanswered, so at most one was read here
  have hle : ((s.conns k).hearAll n).heard ≤ (s.conns k).lasts.length + 1 := by
    have hasked' : ((s.conns k).hearAll n).asked = (s.conns k).asked := hasked
    have hle := hok.heard_le
    rw [hasked'] at hle
    exact hle.trans (h.conn k).outstanding
  have hcounts : ((s.conns k).hearAll n).heard = (s.conns k).lasts.length +
      (b || decide (Bell.request ∈ (s.conns k).unread.take n)).toNat := by
    have hbefore := h.heard_reads hp
    cases b with
    | true =>
      simp only [Bool.true_or, Bool.toNat_true] at hbefore ⊢
      omega
    | false =>
      by_cases hmem : Bell.request ∈ (s.conns k).unread.take n
      · have hpos := List.count_pos_iff.mpr hmem
        simp only [hmem, decide_true, Bool.or_true, Bool.toNat_true]
        omega
      · have hzero := List.count_eq_zero_of_not_mem hmem
        simp only [hmem, decide_false, Bool.or_false, Bool.toNat_false] at hbefore ⊢
        omega
  have hq' : ((s.conns k).hearAll n).queued = false := hqueued.trans hq
  refine h.update hat _ s.queue s.accepted s.answered hok hopen harea h.queue_nodup ?_ ?_ ?_ ?_
    hphase ?_ ?_ fun _ _ => rfl
  · intro j
    rw [hq']
    have hi : i ∉ s.queue := fun hi => hphase.2.2 i hi List.mem_cons_self
    constructor
    · intro hj
      exact .inl ⟨hj, fun he => hi (he ▸ hj)⟩
    · rintro (⟨hj, -⟩ | ⟨-, hfalse⟩)
      · exact hj
      · cases hfalse
  · intro j hj
    rw [hp, busy_reads, busy_reads]
    exact iff_of_false (fun he => hj he.2.symm) fun he => hj he.2.symm
  · rw [hlasts, hq', hcounts]
    simp only [busy_reads, Bool.false_or, and_true, Bool.decide_eq_true]
  · exact fun _ => hq'
  · have hlog := h.log
    rw [hp] at hlog
    exact hlog
  · rw [hlasts]
    exact h.lasts k

/-- A request joins the queue. -/
theorem Fair.enqueue (h : Fair s) {todo : List ℕ} (hp : s.phase = .reads i k true todo) :
    Fair { s.enqueue i k with phase := .rings todo } := by
  obtain ⟨hat, hq⟩ := h.not_queued hp
  have hheard := h.heard_reads hp
  have hphase := h.phase
  rw [hp] at hphase
  obtain ⟨-, hnodup, hdisjoint⟩ := hphase
  have hi : i ∉ s.queue := fun hi => hdisjoint i hi List.mem_cons_self
  refine h.update (f := fun c => { c with queued := true }) hat (.rings todo) (s.queue ++ [i])
    (s.accepted ++ [(k, (read (s.conns k).area).1)]) s.answered ((h.conn k).setQueued true) rfl rfl
    ?_ ?_ ?_ hheard ?_ ?_ ?_ (h.lasts k) fun _ _ => rfl
  · exact List.nodup_append.mpr ⟨h.queue_nodup, List.nodup_singleton i, fun a ha b hb he =>
      hi (List.mem_singleton.mp hb ▸ he ▸ ha)⟩
  · intro j
    rw [List.mem_append, List.mem_singleton]
    constructor
    · rintro (hj | rfl)
      · exact .inl ⟨hj, fun he => hi (he ▸ hj)⟩
      · exact .inr ⟨rfl, rfl⟩
    · rintro (⟨hj, -⟩ | ⟨rfl, -⟩)
      · exact .inl hj
      · exact .inr rfl
  · intro j hj
    rw [hp, busy_reads]
    exact iff_of_false nofun fun he => hj he.2.symm
  · nofun
  · refine ⟨hnodup.of_cons, ?_⟩
    intro j hj hjtodo
    rcases List.mem_append.mp hj with hj | hj
    · exact hdisjoint j hj (List.mem_cons_of_mem i hjtodo)
    · obtain rfl := List.mem_singleton.mp hj
      exact (List.nodup_cons.mp hnodup).1 hjtodo
  · have hlog := h.log
    rw [hp] at hlog
    rw [hlog, List.map_append, List.map_singleton, entry_of_at hat, List.append_assoc]
    simp [Phase.current]

/-- The client of a slot is gone. -/
theorem Fair.leave (h : Fair s) {b : Bool} {todo : List ℕ} (hp : s.phase = .reads i k b todo)
    (hclosed : (s.conns k).open_ = false) :
    Fair { s with slots := s.slots.set i none, phase := .rings todo } := by
  have hphase := h.phase
  rw [hp] at hphase
  obtain ⟨hat, hnodup, hdisjoint⟩ := hphase
  have hback : ∀ j l, (s.slots.set i none)[j]? = some (some l) → j ≠ i ∧ s.At j l := by
    intro j l hj
    rw [List.getElem?_set] at hj
    split at hj
    · split at hj <;> cases hj
    · next hne => exact ⟨Ne.symm hne, hj⟩
  have hkeep : ∀ j l, j ≠ i → s.At j l → (s.slots.set i none)[j]? = some (some l) := by
    intro j l hj hl
    rw [List.getElem?_set_ne (Ne.symm hj)]
    exact hl
  have hne : ∀ j l, j ≠ i → s.At j l → l ≠ k := by
    rintro j l hj hl rfl
    exact hj (h.injective j i l hl hat)
  have hqueue : ∀ j ∈ s.queue, j ≠ i := by
    rintro j hj rfl
    exact hdisjoint j hj List.mem_cons_self
  refine
    { conn := h.conn
      joined := fun j l hl => h.joined j l (hback j l hl).2
      fresh := h.fresh
      injective := fun j j' l hl hl' => h.injective j j' l (hback j l hl).2 (hback j' l hl').2
      present := ?_
      queue_at := ?_
      queue_nodup := h.queue_nodup
      in_queue := fun j l hl => h.in_queue j l (hback j l hl).2
      counts := ?_
      free := nofun
      phase := ⟨hnodup.of_cons, fun j hj hmem => hdisjoint j hj (List.mem_cons_of_mem i hmem)⟩
      log := ?_
      lasts := h.lasts }
  · intro l hl hopen
    obtain ⟨j, hj⟩ := h.present l hl hopen
    refine ⟨j, hkeep j l ?_ hj⟩
    rintro rfl
    obtain rfl := hat.conn_eq hj
    rw [hclosed] at hopen
    cases hopen
  · intro j hj
    obtain ⟨l, hl, hq⟩ := h.queue_at j hj
    exact ⟨l, hkeep j l (hqueue j hj) hl, hq⟩
  · intro j l hl
    obtain ⟨hj, hl⟩ := hback j l hl
    have hcounts := h.counts j l hl
    have hbusy : s.phase.busy ≠ some l := by
      rw [hp, Ne, busy_reads]
      exact fun he => hne j l hj hl he.2.symm
    simp only [pending, hbusy, decide_false] at hcounts
    simpa [pending, Phase.busy] using hcounts
  · have hlog := h.log
    rw [hp] at hlog
    refine hlog.trans (congrArg _ (List.map_congr_left fun j hj => ?_))
    obtain ⟨l, hl, -⟩ := h.queue_at j hj
    have hl' := hkeep j l (hqueue j hj) hl
    rw [entry_of_at hl]
    simp [entry, hl']

/-! ### Answering -/

/-- The request of connection `k`, numbered `id`, is being answered. -/
structure Answering (s : Served) (k : ℕ) (id : UInt64) : Prop where
  busy : s.phase.busy = some k
  current : s.phase.current = [(k, id)]
  number : id = (read (s.conns k).area).1
  seated : ∃ i, s.At i k

theorem Fair.answering {id : UInt64} (h : Fair s)
    (hp : s.phase = .streams k id ∨ s.phase = .hears k id) : s.Answering k id := by
  have hphase := h.phase
  rcases hp with hp | hp
  · rw [hp] at hphase
    exact ⟨by rw [hp]; rfl, by rw [hp]; rfl, hphase.2, hphase.1⟩
  · rw [hp] at hphase
    exact ⟨by rw [hp]; rfl, by rw [hp]; rfl, hphase.2, hphase.1⟩

variable {id : UInt64}

theorem Fair.heard_answering (h : Fair s) (ha : s.Answering k id) :
    (s.conns k).heard = (s.conns k).lasts.length + 1 := by
  obtain ⟨i, hat⟩ := ha.seated
  rw [h.counts i k hat, pending, ha.busy]
  simp

/-- The queue stays as it is while a request is answered. -/
theorem Fair.queue_answering (h : Fair s) (ha : s.Answering k id) (hat : s.At i k) (j : ℕ) :
    j ∈ s.queue ↔ j ∈ s.queue ∧ j ≠ i ∨ j = i ∧ (s.conns k).queued = true := by
  have hq := h.free k ha.busy
  rw [hq]
  constructor
  · intro hj
    refine .inl ⟨hj, ?_⟩
    rintro rfl
    obtain ⟨l, hl, hlq⟩ := h.queue_at j hj
    obtain rfl := hat.conn_eq hl
    rw [hq] at hlq
    cases hlq
  · rintro (⟨hj, -⟩ | ⟨-, hfalse⟩)
    · exact hj
    · cases hfalse

/-- Doorbells read between two texts hold no request. -/
theorem Fair.chunk_hears (h : Fair s) (ha : s.Answering k id) (n : ℕ) :
    Fair (s.set k fun c => c.hearAll n) := by
  obtain ⟨i, hat⟩ := ha.seated
  obtain ⟨hok, -, hheard⟩ := (h.conn k).hearAll n
  obtain ⟨-, hasked, harea, -, hqueued, hopen⟩ :=
    Conn.hearAll_same ((s.conns k).unread.take n) (s.conns k)
  refine h.change (h.joined i k hat) hok ?_ (Conn.hearAll_lasts _ n) hqueued hopen.le
    fun _ => harea
  have hle : ((s.conns k).hearAll n).heard ≤ (s.conns k).lasts.length + 1 := by
    have hasked' : ((s.conns k).hearAll n).asked = (s.conns k).asked := hasked
    have hle := hok.heard_le
    rw [hasked'] at hle
    exact hle.trans (h.conn k).outstanding
  have hbefore := h.heard_answering ha
  omega

theorem Fair.text (h : Fair s) (ha : s.Answering k id) (t : String) :
    Fair { s.say k (.text id t) with phase := .hears k id } := by
  obtain ⟨i, hat⟩ := ha.seated
  have hheard := h.heard_answering ha
  obtain rfl := ha.number
  have hlasts : ∀ c : Conn, (c.say (.text (read (s.conns k).area).1 t)).lasts = c.lasts := fun c => Conn.lasts_say
  refine h.update (f := fun c => c.say (.text (read (s.conns k).area).1 t)) hat
    (.hears k (read (s.conns k).area).1) s.queue s.accepted s.answered
    ((h.conn k).sayText hheard t) rfl rfl h.queue_nodup (h.queue_answering ha hat) ?_ ?_
    (fun _ => h.free k ha.busy) ⟨⟨i, hat⟩, ?_⟩ ?_ ?_ fun _ _ => rfl
  · intro j _
    rw [ha.busy]
    rfl
  · rw [hlasts]
    exact hheard.trans (by simp [Phase.busy])
  · rw [conns_set_self]
    rfl
  · rw [h.log, ha.current]
    rfl
  · rw [hlasts]
    exact h.lasts k

/-- The last message of an answer. -/
theorem Fair.last (h : Fair s) (ha : s.Answering k id) {a : Answer} (hends : a.Ends id)
    (hcancelled : ∀ i, a = .error i cancelled →
      CancelRung (s.conns k).rung (s.conns k).lasts.length ∨ (s.conns k).open_ = false) :
    Fair { s.say k a with phase := .drains } := by
  obtain ⟨i, hat⟩ := ha.seated
  have hheard := h.heard_answering ha
  have hlasts : ((s.conns k).say a).lasts = (s.conns k).lasts ++ [a] := by
    rw [Conn.lasts_say, if_pos hends.2]
  have hanswered : (s.say k a).answered = s.answered ++ [(k, id)] := by
    change (if a.isLast then s.answered ++ [(k, a.id)] else s.answered) = _
    rw [if_pos hends.2, hends.1]
  have hfair := h.update (f := fun c => c.say a) hat .drains s.queue
    s.accepted (s.answered ++ [(k, id)])
    ((h.conn k).sayLast hheard (ha.number ▸ hends) hcancelled) rfl rfl h.queue_nodup
    (h.queue_answering ha hat) ?_ ?_ (fun _ => h.free k ha.busy) trivial ?_ ?_ ?_
  · rw [← hanswered] at hfair
    exact hfair
  · intro j hj
    rw [ha.busy]
    exact iff_of_false nofun fun he => hj (Option.some.inj he).symm
  · change (s.conns k).heard = ((s.conns k).say a).lasts.length +
      ((s.conns k).queued || false).toNat
    rw [hlasts, h.free k ha.busy, List.length_append, hheard]
    rfl
  · rw [h.log, ha.current]
    simp [Phase.current]
  · rw [hlasts, List.map_append, h.lasts k, List.filter_append, List.map_append]
    simp [hends.1]
  · intro j hj
    rw [List.filter_append]
    simp [Ne.symm hj]

/-- An answer is cut off for a cancel of its own, or because the client left. -/
theorem Fair.cutOff (h : Fair s) (ha : s.Answering k id)
    (hwhy : (s.conns k).cancel = true ∨ (s.conns k).open_ = false) : Fair (s.cutOff k id) := by
  obtain ⟨i, hat⟩ := ha.seated
  have hheard := h.heard_answering ha
  have hclear : Fair (s.set k fun c => { c with cancel := false }) :=
    h.change (h.joined i k hat) { h.conn k with flag := nofun } rfl rfl rfl (fun ho => ho)
      fun _ => rfl
  have hstill : (s.set k fun c => { c with cancel := false }).Answering k id :=
    ⟨ha.busy, ha.current, by rw [conns_set_self]; exact ha.number, ha.seated⟩
  refine hclear.last hstill ⟨rfl, rfl⟩ fun _ _ => ?_
  rw [conns_set_self]
  exact hwhy.imp_left ((h.conn k).flag_own hheard)

/-- The first request of the queue is taken up. -/
theorem Fair.take (h : Fair s) (hp : s.phase = .drains) {queue : List ℕ}
    (hqueue : s.queue = i :: queue) (hat : s.At i k) :
    Fair { s.set k fun c => { c with queued := false, cancel := false } with
      queue, phase := .streams k (read (s.conns k).area).1 } := by
  have hnodup := h.queue_nodup
  rw [hqueue] at hnodup
  obtain ⟨l, hl, hq⟩ := h.queue_at i (by rw [hqueue]; exact List.mem_cons_self)
  obtain rfl := hl.conn_eq hat
  refine h.update (f := fun c => { c with queued := false, cancel := false }) hat
    (.streams l (read (s.conns l).area).1) queue s.accepted s.answered ((h.conn l).clearCancel false)
    rfl rfl hnodup.of_cons ?_ ?_ ?_ (fun _ => rfl) ⟨⟨i, hat⟩, ?_⟩ ?_ (h.lasts l) fun _ _ => rfl
  · intro j
    rw [hqueue, List.mem_cons]
    constructor
    · intro hj
      exact .inl ⟨.inr hj, fun he => (List.nodup_cons.mp hnodup).1 (he ▸ hj)⟩
    · rintro (⟨rfl | hj, hne⟩ | ⟨-, hfalse⟩)
      · exact absurd rfl hne
      · exact hj
      · cases hfalse
  · intro j hj
    rw [hp]
    exact iff_of_false (fun he => hj (Option.some.inj he).symm) nofun
  · have hcounts := h.counts i l hat
    rw [pending, hq] at hcounts
    exact hcounts.trans (by simp [Phase.busy]; rfl)
  · simp only [conns_set_self]
  · rw [h.log, hp, hqueue, List.map_cons, entry_of_at hat]
    simp [Phase.current]

theorem Fair.setStop (h : Fair s) (b : Bool) : Fair { s with stop := b } := { h with }

/-- What `answer` makes of the request it took up. -/
theorem Fair.answer (h : Fair s) (hp : s.phase = .drains) {queue : List ℕ}
    (hqueue : s.queue = i :: queue) (hat : s.At i k) (w : World) :
    Fair ({ s with queue }.answer k w) := by
  have htake := h.take hp hqueue hat
  have hanswering := htake.answering (.inl rfl)
  have hheard : (s.conns k).heard = (s.conns k).lasts.length + 1 := by
    have hheard := htake.heard_answering hanswering
    simp only [conns_set_self] at hheard
    exact hheard
  unfold Served.answer
  dsimp only
  split
  · next hcancel =>
    have hlast := htake.last hanswering (a := .error (read (s.conns k).area).1 cancelled) ⟨rfl, rfl⟩
      fun _ _ => .inl (by simp only [conns_set_self]; exact (h.conn k).flag_own hheard hcancel)
    rw [← hp] at hlast
    exact hlast
  · split
    · next a ha =>
      have hlast := (htake.last hanswering (ends_of_answer ha) fun j hj =>
        absurd hj (not_cancelled_of_answer ha j)).setStop
          (s.stop || (read (s.conns k).area).2 = some Ask.shutdown)
      rw [← hp] at hlast
      exact hlast
    · exact htake.setStop _

/-! ### Clients come -/

/-- A new client gets a slot that was free. -/
theorem place_spec (slots : List (Option ℕ)) (k : ℕ) : ∃ i : ℕ, (∀ l, slots[i]? ≠ some (some l)) ∧
    ∀ j : ℕ, (place slots k)[j]? = if j = i then some (some k) else slots[j]? := by
  unfold place
  split
  · next free hfree =>
    obtain ⟨hlt, hnone, -⟩ := List.findIdx?_eq_some_iff_getElem.mp hfree
    refine ⟨free, ?_, ?_⟩
    · intro l hl
      rw [List.getElem?_eq_getElem hlt] at hl
      rw [Option.some.inj hl] at hnone
      cases hnone
    · intro j
      rw [List.getElem?_set]
      rcases eq_or_ne j free with rfl | hj
      · rw [if_pos rfl, if_pos hlt, if_pos rfl]
      · rw [if_neg hj.symm, if_neg hj]
  · refine ⟨slots.length, ?_, ?_⟩
    · intro l hl
      rw [List.getElem?_eq_none le_rfl] at hl
      cases hl
    · intro j
      rw [List.getElem?_append]
      split
      · next hlt => rw [if_neg hlt.ne]
      · next hge =>
        rw [List.getElem?_singleton]
        rcases eq_or_ne j slots.length with rfl | hj
        · simp
        · rw [if_neg (by omega), if_neg hj, List.getElem?_eq_none (not_lt.mp hge)]

theorem Fair.accept (h : Fair s) (hp : s.phase = .poll) : Fair s.accept := by
  obtain ⟨i, hfree, hplace⟩ := place_spec s.slots s.joined
  have hqueue : s.queue = [] := by
    have hphase := h.phase
    rw [hp] at hphase
    exact hphase
  have hback : ∀ j l, s.accept.At j l → (j = i ∧ l = s.joined) ∨ (j ≠ i ∧ s.At j l) := by
    intro j l hl
    rw [At, Served.accept, hplace] at hl
    split at hl
    · next hj => exact .inl ⟨hj, (Option.some.inj (Option.some.inj hl)).symm⟩
    · next hj => exact .inr ⟨hj, hl⟩
  have hkeep : ∀ j l, s.At j l → s.accept.At j l := by
    intro j l hl
    rw [At, Served.accept, hplace, if_neg]
    · exact hl
    · rintro rfl
      exact hfree l hl
  have hnew := h.fresh s.joined le_rfl
  refine
    { conn := h.conn
      joined := ?_
      fresh := fun k hk => h.fresh k (Nat.le_of_succ_le hk)
      injective := ?_
      present := ?_
      queue_at := fun j hj => absurd (hqueue ▸ hj : j ∈ []) List.not_mem_nil
      queue_nodup := h.queue_nodup
      in_queue := ?_
      counts := ?_
      free := h.free
      phase := ?_
      log := ?_
      lasts := h.lasts }
  · intro j l hl
    rcases hback j l hl with ⟨-, rfl⟩ | ⟨-, hl⟩
    · exact Nat.lt_succ_self _
    · exact (h.joined j l hl).trans (Nat.lt_succ_self _)
  · intro j j' l hl hl'
    rcases hback j l hl with ⟨rfl, rfl⟩ | ⟨-, hl⟩
    · rcases hback j' _ hl' with ⟨rfl, -⟩ | ⟨-, hl'⟩
      · rfl
      · exact absurd (h.joined j' _ hl') (lt_irrefl _)
    · rcases hback j' l hl' with ⟨-, rfl⟩ | ⟨-, hl'⟩
      · exact absurd (h.joined j _ hl) (lt_irrefl _)
      · exact h.injective j j' l hl hl'
  · intro l hl hopen
    rcases Nat.lt_succ_iff_lt_or_eq.mp hl with hl | rfl
    · obtain ⟨j, hj⟩ := h.present l hl hopen
      exact ⟨j, hkeep j l hj⟩
    · refine ⟨i, ?_⟩
      rw [At, Served.accept, hplace, if_pos rfl]
  · intro j l hl hq
    rcases hback j l hl with ⟨-, rfl⟩ | ⟨-, hl⟩
    · rw [Served.accept, hnew] at hq
      cases hq
    · exact h.in_queue j l hl hq
  · intro j l hl
    rcases hback j l hl with ⟨-, rfl⟩ | ⟨-, hl⟩
    · simp only [pending, Served.accept, hnew, hp]
      rfl
    · exact h.counts j l hl
  · rw [show s.accept.phase = .poll from hp]
    exact hqueue
  · have hlog := h.log
    rw [hqueue] at hlog
    rw [show s.accept.queue = [] from hqueue]
    exact hlog

theorem Fair.poll (h : Fair s) (hp : s.phase = .poll) (join : Bool) :
    Fair { if join then s.accept else s with
      phase := .rings ((List.range s.slots.length).filter s.ready) } := by
  have hqueue : s.queue = [] := by
    have hphase := h.phase
    rw [hp] at hphase
    exact hphase
  have hnodup : ((List.range s.slots.length).filter s.ready).Nodup := List.nodup_range.filter _
  have hnone : ∀ todo : List ℕ, ∀ j ∈ s.queue, j ∉ todo := by
    intro todo j hj
    rw [hqueue] at hj
    cases hj
  cases join with
  | false => exact h.move (by rw [hp]; rfl) (by rw [hp]; rfl) ⟨hnodup, hnone _⟩
  | true =>
    have haccept : s.accept.phase = .poll := hp
    exact (h.accept hp).move (by rw [haccept]; rfl) (by rw [haccept]; rfl) ⟨hnodup, hnone _⟩

end Served

end Chatlink.Serve
